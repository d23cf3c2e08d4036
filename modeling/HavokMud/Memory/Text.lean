import HavokMud.Memory.Strings

/-!
# Strings in memory

A string is spelled at an address when its bytes stand there, followed by a `NUL`.  It is read back
as it was written, and only a write to one of its bytes can change it.
-/

namespace HavokMud.Memory

variable {mem mem' : ℤ → UInt8} {p q : ℤ} {text : List UInt8}

/-- The bytes of `text`, none of them `NUL`, and then a `NUL` stand at `p`. -/
def Spells (mem : ℤ → UInt8) : ℤ → List UInt8 → Prop
  | p, [] => mem p = 0
  | p, c :: text => c ≠ 0 ∧ mem p = c ∧ Spells mem (p + 1) text

namespace Spells

theorem bytesUpTo_eq (h : Spells mem p text) {n : ℕ} (hn : text.length < n) :
    bytesUpTo mem n p = text := by
  induction text generalizing p n with
  | nil =>
      obtain ⟨n, rfl⟩ : ∃ m, n = m + 1 := ⟨n - 1, by simp at hn; omega⟩
      exact if_pos h
  | cons c text ih =>
      obtain ⟨n, rfl⟩ : ∃ m, n = m + 1 := ⟨n - 1, by simp at hn; omega⟩
      obtain ⟨hc, hp, htail⟩ := h
      rw [bytesUpTo, if_neg (by rw [hp]; exact hc), hp, ih htail (by simpa using hn)]

/-- A string is read as it is spelled. -/
theorem cstring_eq (h : Spells mem p text) (hlen : text.length < addressSpace) :
    cstring mem p = text :=
  h.bytesUpTo_eq hlen

/-- Only the bytes of a string and its `NUL` matter. -/
theorem congr (h : Spells mem p text)
    (hsame : ∀ a, p ≤ a → a ≤ p + text.length → mem' a = mem a) : Spells mem' p text := by
  induction text generalizing p with
  | nil => exact (hsame p le_rfl (by simp)).trans h
  | cons c text ih =>
      obtain ⟨hc, hp, htail⟩ := h
      refine ⟨hc, (hsame p le_rfl (by omega)).trans hp, ih htail fun a hlo hhi ↦ ?_⟩
      exact hsame a (by omega) (by rw [List.length_cons]; push_cast; omega)

/-- What is spelled when the bytes are those of the string and a `NUL` follows. -/
theorem of_bytes (hnul : 0 ∉ text) (hbytes : ∀ i, ∀ hi : i < text.length, mem (p + i) = text[i])
    (hend : mem (p + text.length) = 0) : Spells mem p text := by
  induction text generalizing p with
  | nil => simpa [Spells] using hend
  | cons c text ih =>
      rw [List.mem_cons, not_or] at hnul
      have hfirst : mem p = c := by simpa using hbytes 0 (Nat.succ_pos _)
      refine ⟨fun heq ↦ hnul.1 heq.symm, hfirst, ih hnul.2 (fun i hi ↦ ?_) ?_⟩
      · have hi' := hbytes (i + 1) (by simpa using hi)
        rw [List.getElem_cons_succ] at hi'
        rw [← hi']
        congr 1
        push_cast
        ring
      · rw [← hend, List.length_cons]
        congr 1
        push_cast
        ring

end Spells

theorem nul_not_mem_bytesUpTo (mem : ℤ → UInt8) (n : ℕ) (p : ℤ) : 0 ∉ bytesUpTo mem n p := by
  induction n generalizing p with
  | zero => exact List.not_mem_nil
  | succ n ih =>
      rw [bytesUpTo]
      split_ifs with hp
      · exact List.not_mem_nil
      · rw [List.mem_cons, not_or]
        exact ⟨fun heq ↦ hp heq.symm, ih _⟩

theorem cstring_eq_nil (hp : mem p = 0) : cstring mem p = [] :=
  (show Spells mem p [] from hp).cstring_eq (by norm_num [addressSpace])

/-- A string that ends is spelled where it is read. -/
theorem spells_bytesUpTo {n : ℕ} (hlen : (bytesUpTo mem n p).length < n) :
    Spells mem p (bytesUpTo mem n p) := by
  induction n generalizing p with
  | zero => exact absurd hlen (Nat.not_lt_zero _)
  | succ n ih =>
      rw [bytesUpTo] at hlen ⊢
      split_ifs at hlen ⊢ with hp
      · exact hp
      · exact ⟨hp, rfl, ih (by simpa using hlen)⟩

theorem nul_not_mem_cstring (mem : ℤ → UInt8) (p : ℤ) : 0 ∉ cstring mem p :=
  nul_not_mem_bytesUpTo mem addressSpace p

/-! ## Writes -/

theorem memset_of_apart {c : UInt8} {n a : ℤ} (ha : a < p ∨ p + n ≤ a) :
    memset mem p c n a = mem a :=
  if_neg (by omega)

theorem writeBytes_of_apart {bytes : List UInt8} {a : ℤ} (ha : a < p ∨ p + bytes.length ≤ a) :
    writeBytes mem p bytes a = mem a :=
  if_neg (by omega)

theorem writeBytes_at {bytes : List UInt8} {i : ℕ} (hi : i < bytes.length) :
    writeBytes mem p bytes (p + i) = bytes[i] := by
  have hrange : p ≤ p + (i : ℤ) ∧ p + (i : ℤ) < p + bytes.length := by omega
  have hindex : (p + (i : ℤ) - p).toNat = i := by omega
  rw [writeBytes, if_pos hrange, hindex, List.getD_eq_getElem?_getD, List.getElem?_eq_getElem hi,
    Option.getD_some]

/-- A string that was copied is spelled where it was copied to. -/
theorem spells_writeBytes (hnul : 0 ∉ text) : Spells (writeBytes mem p (text ++ [0])) p text := by
  refine Spells.of_bytes hnul (fun i hi ↦ ?_) ?_
  · rw [writeBytes_at (by simp; omega), List.getElem_append_left hi]
  · rw [writeBytes_at (by simp), List.getElem_append_right le_rfl]
    simp

/-- What `memstrnlink` copies is spelled where it was copied to. -/
theorem spells_shortCopy (hnul : 0 ∉ text) (len : ℕ) :
    Spells (writeBytes (writeBytes mem p (text.take len ++ List.replicate (len - text.length) 0))
      (p + len) [0]) p (text.take len) := by
  have hlen : (text.take len).length = min len text.length := List.length_take
  refine Spells.of_bytes (fun h ↦ hnul (List.mem_of_mem_take h)) (fun i hi ↦ ?_) ?_
  · rw [writeBytes_of_apart (by omega), writeBytes_at (by simp; omega), List.getElem_append_left hi]
  · by_cases hle : len ≤ text.length
    · have hend : ((text.take len).length : ℤ) = len := by rw [hlen, Nat.min_eq_left hle]
      rw [hend]
      have hat : writeBytes (writeBytes mem p
          (text.take len ++ List.replicate (len - text.length) 0)) (p + len) [0]
          (p + len + (0 : ℕ)) = 0 := writeBytes_at Nat.one_pos
      simpa using hat
    · have hmin : (text.take len).length = text.length := by omega
      rw [writeBytes_of_apart (by omega), writeBytes_at (by simp; omega),
        List.getElem_append_right (by omega)]
      simp

end HavokMud.Memory
