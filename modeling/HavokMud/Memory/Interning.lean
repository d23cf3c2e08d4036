import HavokMud.Memory.Clients
import HavokMud.Memory.Text

/-!
# Interned strings

`memstrlink` keeps one `MemoryString_t` record for all strings that are equal without regard to
case.  The records on the tree lie in fragments of their own, so neither a request nor a client's
write changes the text of one; and a record never leaves the pool of allocations, since `memfree` is
called with the address of its tree item, at which no fragment starts.
-/

namespace HavokMud.Memory

open BinaryTree BTree SearchTree HavokMud.Interval

/-- The state of the string tree.  Of the `records` that were ever made those on the tree are sorted
by their text, and all of them are still handed out. -/
structure Interned (pl : Platform) (now : ℤ) (s : State) (records : List ℤ) : Prop where
  inv : Inv now [] s.allocator
  exact : Exact s.allocator
  sorted : Sorted (fun r ↦ fold (s.textOf pl r)) s.stringTree
  placed : ∀ r ∈ inorder s.stringTree,
    (r, (pl.sizeofString + (s.textOf pl r).length : ℤ)) ∈ handed s.allocator
  made : ∀ r ∈ inorder s.stringTree, r ∈ records
  kept : ∀ r ∈ records, ∃ n, (r, n) ∈ handed s.allocator ∧ (pl.sizeofString : ℤ) ≤ n

/-- No text on the tree is changed. -/
def TextsKept (pl : Platform) (s s' : State) : Prop :=
  ∀ r ∈ inorder s.stringTree, s'.textOf pl r = s.textOf pl r

/-- No string on the tree differs from `text` in case only. -/
def NoVariant (pl : Platform) (s : State) (text : List UInt8) : Prop :=
  ∀ r ∈ inorder s.stringTree, fold (s.textOf pl r) = fold text → s.textOf pl r = text

instance (pl : Platform) (s : State) (text : List UInt8) : Decidable (NoVariant pl s text) :=
  inferInstanceAs (Decidable (∀ r ∈ inorder s.stringTree, _))

variable {pl : Platform} {now : ℤ} {s s' : State} {records : List ℤ} {text : List UInt8} {r : ℤ}

/-- What is handed out does not meet what is handed out elsewhere. -/
theorem Inv.apart_of_ne {a : Allocator} (hinv : Inv now [] a) {x y : ℤ × ℤ} (hx : x ∈ handed a)
    (hy : y ∈ handed a) (hne : x.1 ≠ y.1) : Apart x.1 x.2 y.1 y.2 := by
  have hsymm : Std.Symm fun x y : ℤ × ℤ ↦ Apart x.1 x.2 y.1 y.2 := ⟨fun _ _ hxy ↦ hxy.symm⟩
  exact hinv.handed_apart.forall hx hy fun heq ↦ hne (congrArg Prod.fst heq)

theorem interned_initial (pl : Platform) (now : ℤ) : Interned pl now initial [] where
  inv := inv_meminit now
  exact := rfl
  sorted := sorted_nil
  placed := by simp [initial]
  made := by simp [initial]
  kept := by simp

namespace Interned

theorem spells (h : Interned pl now s records) (hr : r ∈ inorder s.stringTree) :
    Spells s.mem (r + pl.bufOffset) (s.textOf pl r) := by
  obtain ⟨-, -, hsize, -⟩ := h.inv.handed_inside (h.placed r hr)
  refine spells_bytesUpTo ?_
  have hlen : ((s.textOf pl r).length : ℤ) < addressSpace := by
    simp only at hsize
    simp only [addressSpace]
    omega
  exact_mod_cast hlen

theorem length_lt (h : Interned pl now s records) (hr : r ∈ inorder s.stringTree) :
    (s.textOf pl r).length < addressSpace := by
  obtain ⟨-, -, hsize, -⟩ := h.inv.handed_inside (h.placed r hr)
  simp only at hsize
  simp only [addressSpace]
  omega

/-- The text of a record stays when its bytes do. -/
theorem textOf_congr (h : Interned pl now s records) (hr : r ∈ inorder s.stringTree)
    (hsame : ∀ a, r + pl.bufOffset ≤ a → a ≤ r + pl.bufOffset + (s.textOf pl r).length →
      s'.mem a = s.mem a) : s'.textOf pl r = s.textOf pl r :=
  ((h.spells hr).congr hsame).cstring_eq (h.length_lt hr)

theorem agrees (s : State) (hnul : 0 ∉ text) :
    Agrees (fun r ↦ keyCompareString text (s.textOf pl r)) (fun r ↦ fold (s.textOf pl r))
      (fold text)
      s.stringTree :=
  agrees_keyCompareString hnul fun _ _ ↦ nul_not_mem_cstring _ _

/-- A string is found when one that is equal without regard to case is on the tree. -/
theorem findString_eq_some_iff (h : Interned pl now s records) (hnul : 0 ∉ text) :
    s.findString pl text = some r ↔
      r ∈ inorder s.stringTree ∧ fold (s.textOf pl r) = fold text :=
  h.sorted.find_eq_some_iff (agrees s hnul)

theorem findString_eq_none_iff (h : Interned pl now s records) (hnul : 0 ∉ text) :
    s.findString pl text = none ↔ ∀ r ∈ inorder s.stringTree, fold (s.textOf pl r) ≠ fold text :=
  h.sorted.find_eq_none_iff (agrees s hnul)

/-- Nothing is handed out inside a record. -/
theorem not_handed_inside (h : Interned pl now s records) (hr : r ∈ records) {offset : ℤ}
    (hlo : 0 < offset) (hhi : offset < pl.sizeofString) (n : ℤ) :
    (r + offset, n) ∉ handed s.allocator := by
  intro hn
  obtain ⟨m, hm, hle⟩ := h.kept r hr
  have hpos := (h.inv.handed_inside hn).2.1
  rcases h.inv.apart_of_ne hm hn (by simp only; omega) with hap | hap <;> simp only at hap hpos <;>
    omega

/-- A change that leaves the tree, its texts and the records alone. -/
theorem congr (h : Interned pl now s records) {later : ℤ} (hinv : Inv later [] s'.allocator)
    (hexact : Exact s'.allocator) (htree : s'.stringTree = s.stringTree) (htext : TextsKept pl s s')
    (hhanded : ∀ x ∈ handed s.allocator, x.1 ∈ records → x ∈ handed s'.allocator) :
    Interned pl later s' records where
  inv := hinv
  exact := hexact
  sorted := by
    rw [htree]
    exact h.sorted.congr fun r hr ↦ by rw [htext r hr]
  placed := by
    rw [htree]
    intro r hr
    rw [htext r hr]
    exact hhanded _ (h.placed r hr) (h.made r hr)
  made := by
    rw [htree]
    exact h.made
  kept r hr := by
    obtain ⟨n, hn, hle⟩ := h.kept r hr
    exact ⟨n, hhanded _ hn hr, hle⟩

theorem mono (h : Interned pl now s records) {later : ℤ} (hle : now ≤ later) :
    Interned pl later s records :=
  h.congr (h.inv.mono hle) h.exact rfl (fun _ _ ↦ rfl) fun _ hx _ ↦ hx

end Interned

/-! ## Requests -/

/-- A buffer of `size` bytes at `p` was made for a client. -/
structure Buffered (pl : Platform) (now : ℤ) (s s' : State) (p size : ℤ) (records : List ℤ) :
    Prop where
  after : Interned pl now s' records
  perm : (handed s'.allocator).Perm ((p, size) :: handed s.allocator)
  fresh : p ∉ records
  texts : TextsKept pl s s'
  tree : s'.stringTree = s.stringTree
  count : s'.count = s.count

theorem Buffered.noVariant_iff {p size : ℤ} (h : Buffered pl now s s' p size records) :
    NoVariant pl s' text ↔ NoVariant pl s text := by
  unfold NoVariant
  rw [h.tree]
  exact forall₂_congr fun r hr ↦ by rw [h.texts r hr]

namespace Interned

/-- A request hands out a piece that meets no record, whatever is then written into it. -/
theorem alloc (h : Interned pl now s records) {size : ℕ} {blk : ℤ} (hpos : 0 < size)
    (hserves : Serves pl s size blk) :
    ∃ a p, s.allocator.memalloc pl size blk = some (a, p) ∧
      (handed a).Perm ((p, (size : ℤ)) :: handed s.allocator) ∧ p ∉ records ∧
      ∀ mem, (∀ b, b < p ∨ p + size ≤ b → mem b = s.mem b) →
        Interned pl now { s with allocator := a, mem := mem } records ∧
          TextsKept pl s { s with allocator := a, mem := mem } := by
  obtain ⟨hfits, hfresh⟩ := hserves hpos
  obtain ⟨a, p, hrun, hinv, hperm, -, hbytes⟩ := h.inv.memalloc pl hpos hfits hfresh
  have hexact := hinv.exact_add hperm hbytes h.exact
  have hold : ∀ x ∈ handed s.allocator, x ∈ handed a := fun x hx ↦
    hperm.mem_iff.mpr (List.mem_cons_of_mem _ hx)
  have hnew : (p, (size : ℤ)) ∈ handed a := hperm.mem_iff.mpr List.mem_cons_self
  refine ⟨a, p, hrun, hperm, fun hp ↦ ?_, fun mem hmem ↦ ?_⟩
  · obtain ⟨n, hn, -⟩ := h.kept p hp
    exact hinv.handed_ne hperm _ hn rfl
  · have htexts : TextsKept pl s { s with allocator := a, mem := mem } := by
      intro r hr
      have hplace := h.placed r hr
      have hapart := hinv.apart_of_ne (hold _ hplace) hnew (hinv.handed_ne hperm _ hplace)
      have hbuf := pl.buf_inside
      refine h.textOf_congr hr fun b hlo hhi ↦ hmem b ?_
      rcases hapart with hap | hap <;> simp only at hap <;> omega
    exact ⟨h.congr hinv hexact rfl htexts fun x hx _ ↦ hold x hx, htexts⟩

/-- Copying a string. -/
theorem memstrdup (h : Interned pl now s records) {orig : List UInt8} {blk : ℤ}
    (hserves : Serves pl s (orig.length + 1) blk) :
    ∃ s' p, Memory.memstrdup pl s orig blk = some (s', p) ∧
      Buffered pl now s s' p (orig.length + 1) records := by
  obtain ⟨a, p, hrun, hperm, hp, hafter⟩ := h.alloc (Nat.succ_pos _) hserves
  push_cast at hperm hafter
  obtain ⟨hinterned, htexts⟩ := hafter
    (writeBytes (memset s.mem p 0 (orig.length + 1 : ℕ)) p (orig ++ [0])) fun b hb ↦ by
      rw [writeBytes_of_apart (by simpa using hb), memset_of_apart (by simpa using hb)]
  refine ⟨_, p, ?_, hinterned, hperm, hp, htexts, rfl, rfl⟩
  simp [Memory.memstrdup, memalloc_eq_some.mpr ⟨a, hrun, rfl⟩]

/-- The temporary copy of `memstrnlink`. -/
theorem shortCopy (h : Interned pl now s records) {orig : List UInt8} (hnul : 0 ∉ orig) {len : ℕ}
    {blk : ℤ} (hserves : Serves pl s (len + 1) blk) :
    ∃ s' p, Memory.shortCopy pl s orig len blk = some (s', p) ∧
      Buffered pl now s s' p (len + 1) records ∧ cstring s'.mem p = orig.take len := by
  obtain ⟨a, p, hrun, hperm, hp, hafter⟩ := h.alloc (Nat.succ_pos _) hserves
  push_cast at hperm hafter
  obtain ⟨hinterned, htexts⟩ := hafter
    (writeBytes (writeBytes (memset s.mem p 0 (len + 1 : ℕ)) p
      (orig.take len ++ List.replicate (len - orig.length) 0)) (p + len) [0]) fun b hb ↦ by
      rw [writeBytes_of_apart (by simp; omega), writeBytes_of_apart (by simp; omega),
        memset_of_apart (by simpa using hb)]
  refine ⟨_, p, ?_, ⟨hinterned, hperm, hp, htexts, rfl, rfl⟩, ?_⟩
  · simp [Memory.shortCopy, memalloc_eq_some.mpr ⟨a, hrun, rfl⟩]
  · refine (spells_shortCopy hnul len).cstring_eq ?_
    have hlen : (orig.take len).length ≤ len := by simp
    have hfits : roundUp pl (len + 1) < 2 ^ 31 := (hserves (Nat.succ_pos _)).1
    have hround := le_roundUp pl (len + 1)
    simp only [addressSpace]
    omega

/-- `memalloc`, for some bytes. -/
theorem memalloc (h : Interned pl now s records) {size : ℕ} {blk : ℤ} (hpos : 0 < size)
    (hserves : Serves pl s size blk) :
    ∃ s' p, Memory.memalloc pl s size blk = some (s', p) ∧ Buffered pl now s s' p size records := by
  obtain ⟨a, p, hrun, hperm, hp, hafter⟩ := h.alloc hpos hserves
  obtain ⟨hinterned, htexts⟩ := hafter (memset s.mem p 0 size) fun b hb ↦ memset_of_apart hb
  exact ⟨_, p, memalloc_eq_some.mpr ⟨a, hrun, rfl⟩, hinterned, hperm, hp, htexts, rfl, rfl⟩

end Interned

/-! ## Links -/

/-- Linking to a string that is found. -/
theorem memstrlink_found {orig : List UInt8} (hfind : s.findString pl orig = some r) (blk : ℤ) :
    memstrlink pl s orig blk =
      some (s.setCount r (toInt (s.count r + 1)), r + pl.bufOffset) := by
  rw [memstrlink, hfind]

/-- A record for `text` was made. -/
structure NewRecord (pl : Platform) (now : ℤ) (s s' : State) (r : ℤ) (text : List UInt8)
    (records : List ℤ) : Prop where
  after : Interned pl now s' (r :: records)
  perm : (handed s'.allocator).Perm
    ((r, (pl.sizeofString + text.length : ℤ)) :: handed s.allocator)
  fresh : r ∉ records
  texts : TextsKept pl s s'
  text : s'.textOf pl r = text
  mem_tree : ∀ b, b ∈ inorder s'.stringTree ↔ b = r ∨ b ∈ inorder s.stringTree
  count : s'.count = Function.update s.count r 1

namespace Interned

/-- Linking to a string that is not found. -/
theorem memstrlink_new (h : Interned pl now s records) {orig : List UInt8}
    (hnul : 0 ∉ orig) {blk : ℤ}
    (hfind : s.findString pl orig = none)
    (hserves : Serves pl s (pl.sizeofString + orig.length) blk) :
    ∃ (s' : State) (r : ℤ), memstrlink pl s orig blk = some (s', r + pl.bufOffset) ∧
      NewRecord pl now s s' r orig records := by
  have hbuf := pl.buf_inside
  have hpos : 0 < pl.sizeofString + orig.length := by omega
  obtain ⟨a, r, hrun, hperm, hr, hafter⟩ := h.alloc hpos hserves
  obtain ⟨hinterned, htexts⟩ := hafter (writeBytes
    (memset s.mem r 0 (pl.sizeofString + orig.length : ℕ)) (r + pl.bufOffset) (orig ++ [0]))
    fun b hb ↦ by
      push_cast at hb
      rw [writeBytes_of_apart (by simp; omega), memset_of_apart (by push_cast; omega)]
  set s₁ : State := { s with
    allocator := a
    mem := writeBytes (memset s.mem r 0 (pl.sizeofString + orig.length : ℕ)) (r + pl.bufOffset)
      (orig ++ [0]) }
  push_cast at hperm
  have htext : s₁.textOf pl r = orig := by
    refine (spells_writeBytes hnul).cstring_eq ?_
    have hfits : roundUp pl (pl.sizeofString + orig.length) < 2 ^ 31 := (hserves hpos).1
    have hround := le_roundUp pl (pl.sizeofString + orig.length)
    simp only [addressSpace]
    omega
  have hnone := (h.findString_eq_none_iff hnul).mp hfind
  have hagrees : Agrees (fun b ↦ keyCompareString (s₁.textOf pl r) (s₁.textOf pl b))
      (fun b ↦ fold (s₁.textOf pl b)) (fold (s₁.textOf pl r)) s₁.stringTree :=
    agrees s₁ (by rw [htext]; exact hnul)
  obtain ⟨tree, hadd, hsorted, hmem⟩ := treeAdd_sorted hinterned.sorted hagrees fun b hb ↦ by
    simp only [htexts b hb, htext]
    exact hnone b hb
  refine ⟨{ s₁.setCount r 1 with stringTree := tree }, r, ?_, ?_⟩
  · rw [memstrlink, hfind]
    simp only [memalloc_eq_some.mpr ⟨a, hrun, rfl⟩, Option.bind_eq_bind, Option.bind_some]
    exact congrArg (Option.bind · _) hadd
  · refine ⟨⟨hinterned.inv, hinterned.exact, hsorted, fun b hb ↦ ?_, fun b hb ↦ ?_, fun b hb ↦ ?_⟩,
      hperm, hr, htexts, htext, hmem, rfl⟩
    · rcases (hmem b).mp hb with rfl | hb
      · have hlen : (s₁.textOf pl b).length = orig.length := by rw [htext]
        have hnew : (b, (pl.sizeofString + (s₁.textOf pl b).length : ℤ)) ∈ handed a := by
          rw [hlen]
          exact hperm.mem_iff.mpr List.mem_cons_self
        exact hnew
      · exact hinterned.placed b hb
    · rcases (hmem b).mp hb with rfl | hb
      · exact List.mem_cons_self
      · exact List.mem_cons_of_mem _ (h.made b hb)
    · rcases List.mem_cons.mp hb with rfl | hb
      · exact ⟨_, hperm.mem_iff.mpr List.mem_cons_self, by omega⟩
      · exact hinterned.kept b hb

end Interned

/-! ## `memfree` -/

/-- The state when the last link to the record at `r` was given up. -/
def State.unlink (pl : Platform) (s : State) (r : ℤ) : State :=
  { s.setCount r (toInt (s.count r - 1)) with
    stringTree := treeRemove r s.stringTree
    mem := memset s.mem (r + pl.itemOffset) 0 8 }

section Loop

variable {fuel : ℕ} {p : ℤ}

theorem memfreeLoop_found (hp : p ≠ 0) (hfind : s.findString pl (cstring s.mem p) = some r) :
    memfreeLoop pl now (fuel + 1) s p =
      if toInt (s.count r - 1) ≤ 0 then
        memfreeLoop pl now fuel (s.unlink pl r) (r + pl.itemOffset)
      else some (s.setCount r (toInt (s.count r - 1))) := by
  rw [memfreeLoop, if_neg hp, hfind]
  simp only [State.setCount, Function.update_self]
  rfl

theorem memfreeLoop_none (hfind : p ≠ 0 → s.findString pl (cstring s.mem p) = none) :
    memfreeLoop pl now (fuel + 1) s p =
      (s.allocator.memfree p now).map fun a ↦ { s with allocator := a } := by
  have hitem : (if p = 0 then none else s.findString pl (cstring s.mem p)) = none := by
    split_ifs with hp
    · rfl
    · exact hfind hp
  rw [memfreeLoop]
  simp only [hitem]
  cases s.allocator.memfree p now <;> rfl

end Loop

/-- Strings were released: records left the tree, and nothing but what stands before the text of a
record was written. -/
structure StringsReleased (pl : Platform) (s s' : State) : Prop where
  tree : ∀ b ∈ inorder s'.stringTree, b ∈ inorder s.stringTree
  mem : ∀ a, (∀ b ∈ inorder s.stringTree, a < b ∨ b + pl.bufOffset ≤ a) → s'.mem a = s.mem a

theorem StringsReleased.of_eq (htree : s'.stringTree = s.stringTree) (hmem : s'.mem = s.mem) :
    StringsReleased pl s s' :=
  ⟨fun _ hb ↦ htree ▸ hb, fun a _ ↦ congrFun hmem a⟩

theorem StringsReleased.trans {s₁ s₂ s₃ : State} (h₁₂ : StringsReleased pl s₁ s₂)
    (h₂₃ : StringsReleased pl s₂ s₃) : StringsReleased pl s₁ s₃ where
  tree b hb := h₁₂.tree b (h₂₃.tree b hb)
  mem a ha := (h₂₃.mem a fun b hb ↦ ha b (h₁₂.tree b hb)).trans (h₁₂.mem a ha)

namespace Interned

/-- Releasing a string leaves the texts of all. -/
theorem textsKept (h : Interned pl now s records) (hreleased : StringsReleased pl s s') :
    TextsKept pl s s' := by
  have hbuf := pl.buf_inside
  intro r hr
  refine h.textOf_congr hr fun a hlo hhi ↦ hreleased.mem a fun b hb ↦ ?_
  rcases eq_or_ne r b with rfl | hne
  · omega
  · rcases h.inv.apart_of_ne (h.placed r hr) (h.placed b hb) hne with hap | hap <;>
      simp only at hap <;> omega

theorem mem_unlink (h : Interned pl now s records) {b : ℤ} :
    b ∈ inorder (s.unlink pl r).stringTree ↔ b ≠ r ∧ b ∈ inorder s.stringTree :=
  mem_treeRemove h.sorted

theorem unlink_released (h : Interned pl now s records) (hr : r ∈ inorder s.stringTree) :
    StringsReleased pl s (s.unlink pl r) where
  tree _ hb := (h.mem_unlink.mp hb).2
  mem a ha := memset_of_apart (by
    have hitem := pl.item_before_buf
    have := ha r hr
    omega)

theorem unlink (h : Interned pl now s records) (hr : r ∈ inorder s.stringTree) :
    Interned pl now (s.unlink pl r) records := by
  have htexts := h.textsKept (h.unlink_released hr)
  refine ⟨h.inv, h.exact, ?_, fun b hb ↦ ?_, fun b hb ↦ ?_, h.kept⟩
  · refine (treeRemove_sorted h.sorted r).congr fun b hb ↦ ?_
    rw [htexts b (h.mem_unlink.mp hb).2]
  · rw [htexts b (h.mem_unlink.mp hb).2]
    exact h.placed b (h.mem_unlink.mp hb).2
  · exact h.made b (h.mem_unlink.mp hb).2

theorem numNodes_unlink (h : Interned pl now s records) (hr : r ∈ inorder s.stringTree) :
    (s.unlink pl r).stringTree.numNodes + 1 = s.stringTree.numNodes := by
  have hlen : (inorder (treeRemove r s.stringTree)).length + 1 = (inorder s.stringTree).length := by
    rw [treeRemove, inorder_balance, inorder_remove h.sorted.nodup, List.length_erase_of_mem hr]
    have hpos := List.length_pos_of_mem hr
    omega
  rwa [length_inorder, length_inorder] at hlen

theorem setCount (h : Interned pl now s records) (r n : ℤ) :
    Interned pl now (s.setCount r n) records :=
  h.congr h.inv h.exact rfl (fun _ _ ↦ rfl) fun _ hx _ ↦ hx

/-- An address inside a record. -/
theorem inside_address (h : Interned pl now s records) (hr : r ∈ records) {offset : ℤ}
    (hlo : 0 < offset) (hhi : offset < pl.sizeofString) : 0 < r + offset ∧ r + offset < 2 ^ 64 := by
  obtain ⟨n, hn, hle⟩ := h.kept r hr
  obtain ⟨hstart, -, -, hend⟩ := h.inv.handed_inside hn
  simp only at hstart hend
  omega

/-- `memfree` of an address inside a record gives up links at most. -/
theorem memfreeLoop_inside (h : Interned pl now s records) {fuel : ℕ}
    (hfuel : s.stringTree.numNodes < fuel) (hr : r ∈ records) {offset : ℤ} (hlo : 0 < offset)
    (hhi : offset < pl.sizeofString) :
    ∃ s', Memory.memfreeLoop pl now fuel s (r + offset) = some s' ∧ Interned pl now s' records ∧
      s'.allocator = s.allocator ∧ StringsReleased pl s s' := by
  induction fuel generalizing s r offset with
  | zero => exact absurd hfuel (Nat.not_lt_zero _)
  | succ fuel ih =>
      obtain ⟨hpos, hlt⟩ := h.inside_address hr hlo hhi
      cases hfind : s.findString pl (cstring s.mem (r + offset)) with
      | none =>
          refine ⟨s, ?_, h, rfl, .of_eq rfl rfl⟩
          rw [memfreeLoop_none fun _ ↦ hfind,
            h.inv.memfree_unknown hpos.le hlt (h.not_handed_inside hr hlo hhi) now]
          rfl
      | some b =>
          have hb := ((h.findString_eq_some_iff (nul_not_mem_cstring _ _)).mp hfind).1
          rw [memfreeLoop_found hpos.ne' hfind]
          split_ifs with hcount
          · -- the record leaves the tree, and the loop goes on with the address of its item
            have hnodes := h.numNodes_unlink hb
            have hitem := pl.item_before_buf
            have hbuf := pl.buf_inside
            have hitem' := pl.itemOffset_pos
            obtain ⟨s', hrun, hinterned, halloc, hreleased⟩ :=
              ih (h.unlink hb) (by omega) (h.made b hb) (by omega : (0 : ℤ) < pl.itemOffset)
                (by omega)
            exact ⟨s', hrun, hinterned, halloc, (h.unlink_released hb).trans hreleased⟩
          · exact ⟨_, rfl, h.setCount _ _, rfl, .of_eq rfl rfl⟩

/-- The `memfree` of a record that has left the tree finds nothing when `""` is not interned. -/
theorem memfreeLoop_item (h : Interned pl now s records) (hr : r ∈ records)
    (hnull : s.mem (r + pl.itemOffset) = 0)
    (hempty : ∀ b ∈ inorder s.stringTree, s.textOf pl b ≠ []) (fuel : ℕ) :
    Memory.memfreeLoop pl now (fuel + 1) s (r + pl.itemOffset) = some s := by
  have hitem := pl.item_before_buf
  have hbuf := pl.buf_inside
  have hlo : (0 : ℤ) < pl.itemOffset := by exact_mod_cast pl.itemOffset_pos
  have hhi : (pl.itemOffset : ℤ) < pl.sizeofString := by omega
  obtain ⟨hpos, hlt⟩ := h.inside_address hr hlo hhi
  have hfind : s.findString pl (cstring s.mem (r + pl.itemOffset)) = none := by
    rw [cstring_eq_nil hnull, h.findString_eq_none_iff List.not_mem_nil]
    intro b hb hfold
    exact hempty b hb (List.map_eq_nil_iff.mp hfold)
  rw [memfreeLoop_none fun _ ↦ hfind,
    h.inv.memfree_unknown hpos.le hlt (h.not_handed_inside hr hlo hhi) now]
  rfl

/-- `memfree` of any address but that of a record: all that can leave the pool of allocations is
what was handed out there. -/
theorem memfree (h : Interned pl now s records) {p : ℤ} (hnonneg : 0 ≤ p) (hlt : p < 2 ^ 64)
    (hp : p ∉ records) :
    ∃ s', Memory.memfree pl s now p = some s' ∧ Interned pl now s' records ∧
      StringsReleased pl s s' ∧ ∀ x ∈ handed s.allocator, x.1 ≠ p → x ∈ handed s'.allocator := by
  by_cases hfind : ∃ b, p ≠ 0 ∧ s.findString pl (cstring s.mem p) = some b
  · obtain ⟨b, hne, hfind⟩ := hfind
    have hb := ((h.findString_eq_some_iff (nul_not_mem_cstring _ _)).mp hfind).1
    rw [Memory.memfree, memfreeLoop_found hne hfind]
    split_ifs with hcount
    · have hnodes := h.numNodes_unlink hb
      have hitem := pl.item_before_buf
      have hbuf := pl.buf_inside
      have hitem' := pl.itemOffset_pos
      obtain ⟨s', hrun, hinterned, halloc, hreleased⟩ :=
        (h.unlink hb).memfreeLoop_inside (by omega : _ < s.stringTree.numNodes) (h.made b hb)
          (by omega : (0 : ℤ) < pl.itemOffset) (by omega)
      refine ⟨s', hrun, hinterned, (h.unlink_released hb).trans hreleased, fun x hx _ ↦ ?_⟩
      rw [halloc]
      exact hx
    · exact ⟨_, rfl, h.setCount _ _, .of_eq rfl rfl, fun x hx _ ↦ hx⟩
  · have hnone : p ≠ 0 → s.findString pl (cstring s.mem p) = none := fun hne ↦
      Option.eq_none_iff_forall_ne_some.mpr fun b hb ↦ hfind ⟨b, hne, hb⟩
    rw [Memory.memfree, memfreeLoop_none hnone]
    by_cases hknown : ∃ n, (p, n) ∈ handed s.allocator
    · obtain ⟨n, hn⟩ := hknown
      obtain ⟨a, hrun, hinv, hperm, -, hbytes⟩ := h.inv.memfree hn
      have hexact := hinv.exact_sub hperm hbytes h.exact
      have hkeep : ∀ x ∈ handed s.allocator, x.1 ≠ p → x ∈ handed a := fun x hx hne ↦ by
        rcases List.mem_cons.mp (hperm.mem_iff.mp hx) with rfl | hx
        · exact absurd rfl hne
        · exact hx
      refine ⟨{ s with allocator := a }, by rw [hrun]; rfl, ?_, .of_eq rfl rfl, hkeep⟩
      exact h.congr hinv hexact rfl (fun _ _ ↦ rfl) fun x hx hrec ↦
        hkeep x hx fun heq ↦ hp (heq ▸ hrec)
    · rw [not_exists] at hknown
      refine ⟨s, ?_, h, .of_eq rfl rfl, fun x hx _ ↦ hx⟩
      rw [h.inv.memfree_unknown hnonneg hlt hknown]
      rfl

end Interned

/-! ## What a link returns -/

/-- A link to the record at `r` was made for `text`. -/
structure Linked (pl : Platform) (now : ℤ) (s s' : State) (r : ℤ) (text : List UInt8)
    (records : List ℤ) : Prop where
  after : Interned pl now s' (r :: records)
  fold_eq : fold (s'.textOf pl r) = fold text
  text_iff : s'.textOf pl r = text ↔ NoVariant pl s text
  handed : ∀ x ∈ handed s.allocator, x ∈ Memory.handed s'.allocator
  fresh : ∀ x ∈ Memory.handed s.allocator, x.1 ∉ records → x.1 ≠ r

namespace Interned

/-- The string that is found is the one that is meant when there is no other spelling of it. -/
theorem noVariant_iff (h : Interned pl now s records) (hnul : 0 ∉ text)
    (hfind : s.findString pl text = some r) : NoVariant pl s text ↔ s.textOf pl r = text := by
  obtain ⟨hr, hfold⟩ := (h.findString_eq_some_iff hnul).mp hfind
  constructor
  · exact fun hno ↦ hno r hr hfold
  · intro htext b hb hfold'
    have hfind' := (h.findString_eq_some_iff hnul).mpr ⟨hb, hfold'⟩
    obtain rfl : r = b := by simpa [hfind] using hfind'
    exact htext

theorem mem_records (h : Interned pl now s records) (hr : r ∈ records) :
    Interned pl now s (r :: records) where
  inv := h.inv
  exact := h.exact
  sorted := h.sorted
  placed := h.placed
  made b hb := List.mem_cons_of_mem _ (h.made b hb)
  kept b hb := by
    rcases List.mem_cons.mp hb with rfl | hb
    · exact h.kept b hr
    · exact h.kept b hb

theorem memstrlink (h : Interned pl now s records) {orig : List UInt8} (hnul : 0 ∉ orig) {blk : ℤ}
    (hserves : s.findString pl orig = none → Serves pl s (pl.sizeofString + orig.length) blk) :
    ∃ (s' : State) (r : ℤ), Memory.memstrlink pl s orig blk = some (s', r + pl.bufOffset) ∧
      Linked pl now s s' r orig records ∧ r ∈ inorder s'.stringTree ∧ TextsKept pl s s' := by
  cases hfind : s.findString pl orig with
  | some r =>
      obtain ⟨hr, hfold⟩ := (h.findString_eq_some_iff hnul).mp hfind
      refine ⟨_, r, memstrlink_found hfind blk, ⟨?_, hfold, ?_, fun _ hx ↦ hx, fun x _ hx heq ↦ ?_⟩,
        hr, fun _ _ ↦ rfl⟩
      · exact (h.setCount _ _).mem_records (h.made r hr)
      · exact (h.noVariant_iff hnul hfind).symm
      · exact hx (heq ▸ h.made r hr)
  | none =>
      obtain ⟨s', r, hrun, hnew⟩ := h.memstrlink_new hnul hfind (hserves hfind)
      refine ⟨s', r, hrun, ⟨hnew.after, by rw [hnew.text], ?_, fun x hx ↦ ?_, fun x hx _ ↦ ?_⟩,
        (hnew.mem_tree r).mpr (Or.inl rfl), hnew.texts⟩
      · have hno : NoVariant pl s orig := fun b hb hfold ↦
          absurd hfold ((h.findString_eq_none_iff hnul).mp hfind b hb)
        exact iff_of_true hnew.text hno
      · exact hnew.perm.mem_iff.mpr (List.mem_cons_of_mem _ hx)
      · exact hnew.after.inv.handed_ne hnew.perm x hx

/-- `memstrnlink` links to what it copied.  Freeing the copy may release the string again, but not
its text. -/
theorem memstrnlink (h : Interned pl now s records) {orig : List UInt8} (hnul : 0 ∉ orig) {len : ℕ}
    (hlen : 0 < len) {blk blk' : ℤ} (hsane : (Op.memstrnlink orig len blk blk').Sane pl s) :
    ∃ (s' : State) (r : ℤ),
      Memory.memstrnlink pl s now orig len blk blk' = some (s', r + pl.bufOffset) ∧
      Linked pl now s s' r (orig.take len) records := by
  obtain ⟨hserves, hserves'⟩ := hsane hlen
  obtain ⟨s₁, p, hcopy, hbuffered, hread⟩ := h.shortCopy hnul hserves
  have hp : (p, (len + 1 : ℤ)) ∈ handed s₁.allocator :=
    hbuffered.perm.mem_iff.mpr List.mem_cons_self
  have hnul' : 0 ∉ orig.take len := fun hmem ↦ hnul (List.mem_of_mem_take hmem)
  obtain ⟨s₂, r, hlink, hlinked, hr, -⟩ := hbuffered.after.memstrlink hnul' (by
    rw [← hread]
    exact hserves' s₁ p hcopy)
  have hp' : p ∉ r :: records := by
    rw [List.mem_cons, not_or]
    exact ⟨hlinked.fresh _ hp hbuffered.fresh, hbuffered.fresh⟩
  obtain ⟨hpos, hsize, -, hend⟩ := hbuffered.after.inv.handed_inside hp
  simp only at hpos hsize hend
  obtain ⟨s₃, hfree, hafter, hreleased, hkeep⟩ :=
    hlinked.after.memfree hpos.le (by omega) hp'
  have hold : ∀ x ∈ handed s.allocator, x ∈ handed s₁.allocator := fun x hx ↦
    hbuffered.perm.mem_iff.mpr (List.mem_cons_of_mem _ hx)
  have htext := hlinked.after.textsKept hreleased r hr
  refine ⟨s₃, r, ?_, hafter, ?_, ?_, fun x hx ↦ ?_, fun x hx hrec ↦ ?_⟩
  · rw [Memory.memstrnlink, if_neg hlen.ne']
    simp only [hcopy, Option.bind_eq_bind, Option.bind_some, hread, hlink, hfree]
  · rw [htext]
    exact hlinked.fold_eq
  · rw [htext, hlinked.text_iff, hbuffered.noVariant_iff]
  · exact hkeep x (hlinked.handed x (hold x hx))
      (hbuffered.after.inv.handed_ne hbuffered.perm x hx)
  · exact hlinked.fresh x (hold x hx) hrec

end Interned

/-! ## Writes and coalescing passes -/

namespace Interned

/-- A write beside the texts on the tree. -/
theorem write (h : Interned pl now s records) {p : ℤ} {bytes : List UInt8}
    (hapart : ∀ r ∈ inorder s.stringTree,
      Apart p bytes.length (r + pl.bufOffset) ((s.textOf pl r).length + 1)) :
    Interned pl now { s with mem := writeBytes s.mem p bytes } records ∧
      TextsKept pl s { s with mem := writeBytes s.mem p bytes } := by
  have htexts : TextsKept pl s { s with mem := writeBytes s.mem p bytes } := by
    intro r hr
    refine h.textOf_congr hr fun a hlo hhi ↦ writeBytes_of_apart ?_
    rcases hapart r hr with hap | hap <;> omega
  exact ⟨h.congr h.inv h.exact rfl htexts fun _ hx _ ↦ hx, htexts⟩

theorem coalesce (h : Interned pl now s records) :
    ∃ a, Memory.coalesce s now = some { s with allocator := a } ∧
      Interned pl now { s with allocator := a } records ∧ handed a = handed s.allocator := by
  obtain ⟨a, hpass, hinv, hsweep, -⟩ := h.inv.coalescePass now
  have hhanded := hsweep.handed_eq hinv
  have hexact : Exact a := by
    rw [Exact, allocTotal, hhanded, hsweep.bytes]
    exact h.exact
  refine ⟨a, by simp [Memory.coalesce, hpass], ?_, hhanded⟩
  exact h.congr hinv hexact rfl (fun _ _ ↦ rfl) fun x hx _ ↦ by
    rw [hhanded]
    exact hx

end Interned

end HavokMud.Memory
