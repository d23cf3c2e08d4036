import Mathlib.Data.List.Basic

/-!
# Strings in buffers

A buffer is a list of bytes, and a string in it ends at the first NUL.  To read or write outside the
buffer is to fail, and so is to look for the end of a string that has none.
-/

namespace HavokMud.Sequence

/-- The string that a buffer begins with. -/
def stringOf : List UInt8 → Option (List UInt8)
  | [] => none
  | c :: buf => if c = 0 then some [] else (stringOf buf).map (c :: ·)

def strlen (buf : List UInt8) : Option ℕ :=
  (stringOf buf).map List.length

/-- `buf[i] = c`. -/
def store (buf : List UInt8) (i : ℕ) (c : UInt8) : Option (List UInt8) :=
  if i < buf.length then some (buf.set i c) else none

/-- `memcpy` of some bytes to `buf[i]`. -/
def memcpy (buf : List UInt8) (i : ℕ) (bytes : List UInt8) : Option (List UInt8) :=
  if i + bytes.length ≤ buf.length then
    some (buf.take i ++ bytes ++ buf.drop (i + bytes.length))
  else none

/-- `strcat` of a string. -/
def strcat (buf text : List UInt8) : Option (List UInt8) := do
  let n ← strlen buf
  if n + text.length < buf.length then
    some (buf.take n ++ text ++ 0 :: buf.drop (n + text.length + 1))
  else none

/-- Where a character stands in a string, whose NUL counts. -/
def strchr (text : List UInt8) (c : UInt8) : Option ℕ :=
  (text ++ [0]).idxOf? c

variable {buf buf' text more rest : List UInt8} {c : UInt8} {i : ℕ}

theorem stringOf_append (hnul : 0 ∉ text) (rest : List UInt8) :
    stringOf (text ++ 0 :: rest) = some text := by
  induction text with
  | nil => rfl
  | cons c text ih =>
      obtain ⟨hc, hnul⟩ := not_or.mp (mt List.mem_cons.mpr hnul)
      rw [List.cons_append, stringOf, if_neg (Ne.symm hc), ih hnul]
      rfl

theorem exists_of_stringOf (h : stringOf buf = some text) :
    0 ∉ text ∧ ∃ rest, buf = text ++ 0 :: rest := by
  induction buf generalizing text with
  | nil => cases h
  | cons c buf ih =>
      rw [stringOf] at h
      split_ifs at h with hc
      · obtain rfl := Option.some.inj h
        exact ⟨List.not_mem_nil, buf, by rw [hc]; rfl⟩
      · obtain ⟨tail, htail, rfl⟩ := Option.map_eq_some_iff.mp h
        obtain ⟨hnul, rest, rfl⟩ := ih htail
        exact ⟨by simpa using ⟨Ne.symm hc, hnul⟩, rest, rfl⟩

/-- A string fits into its buffer with the NUL. -/
theorem length_lt_of_stringOf (h : stringOf buf = some text) : text.length < buf.length := by
  obtain ⟨-, rest, rfl⟩ := exists_of_stringOf h
  simp

theorem strlen_of_stringOf (h : stringOf buf = some text) : strlen buf = some text.length := by
  rw [strlen, h]
  rfl

theorem length_of_store (h : store buf i c = some buf') : buf'.length = buf.length := by
  unfold store at h
  split_ifs at h
  obtain rfl := Option.some.inj h
  exact List.length_set

theorem store_append (pre rest : List UInt8) (old c : UInt8) :
    store (pre ++ old :: rest) pre.length c = some (pre ++ c :: rest) := by
  rw [store, if_pos (by simp), List.set_append_right _ _ (Nat.le_refl _), Nat.sub_self,
    List.set_cons_zero]

/-- Bytes that fit stand behind what is in front of them. -/
theorem memcpy_eq_some {bytes : List UInt8} (hfits : i + bytes.length ≤ buf.length) :
    ∃ buf', memcpy buf i bytes = some buf' ∧ buf'.length = buf.length ∧
      buf'.take (i + bytes.length) = buf.take i ++ bytes := by
  refine ⟨_, if_pos hfits, ?_, ?_⟩
  · simp only [List.length_append, List.length_take, List.length_drop]
    omega
  · have hlength : (buf.take i ++ bytes).length = i + bytes.length := by
      rw [List.length_append, List.length_take_of_le (by omega)]
    exact List.take_left' hlength

/-- A NUL at the start makes the string empty. -/
theorem store_nul (hbuf : buf ≠ []) :
    ∃ buf', store buf 0 0 = some buf' ∧ stringOf buf' = some [] ∧ buf'.length = buf.length := by
  cases buf with
  | nil => exact absurd rfl hbuf
  | cons c buf => exact ⟨0 :: buf, rfl, rfl, rfl⟩

theorem strcat_eq_none (h : stringOf buf = some text)
    (hlong : buf.length ≤ text.length + more.length) : strcat buf more = none := by
  rw [strcat, strlen_of_stringOf h, Option.bind_eq_bind, Option.bind_some,
    if_neg (Nat.not_lt.mpr hlong)]

theorem strcat_eq_some (h : stringOf buf = some text) (hmore : 0 ∉ more)
    (hfits : text.length + more.length < buf.length) :
    ∃ buf', strcat buf more = some buf' ∧ stringOf buf' = some (text ++ more) ∧
      buf'.length = buf.length := by
  obtain ⟨hnul, rest, rfl⟩ := exists_of_stringOf h
  refine ⟨text ++ more ++ 0 :: rest.drop more.length, ?_, stringOf_append ?_ _, ?_⟩
  · rw [strcat, strlen_of_stringOf h, Option.bind_eq_bind, Option.bind_some, if_pos hfits]
    simp [Nat.add_assoc]
  · simpa using ⟨hnul, hmore⟩
  · simp only [List.length_append, List.length_cons, List.length_drop] at hfits ⊢
    omega

/-- One character is written over the NUL, and another NUL behind it. -/
def push (buf : List UInt8) (i : ℕ) (c : UInt8) : Option (List UInt8) := do
  let buf ← store buf i c
  store buf (i + 1) 0

theorem push_eq_none (hlong : buf.length ≤ i + 1) : push buf i c = none := by
  refine Option.bind_eq_none_iff.mpr fun buf' hbuf' ↦ if_neg ?_
  rw [length_of_store hbuf']
  exact Nat.not_lt.mpr hlong

theorem push_eq_some (h : stringOf buf = some text) (hc : c ≠ 0)
    (hfits : text.length + 1 < buf.length) :
    ∃ buf', push buf text.length c = some buf' ∧ stringOf buf' = some (text ++ [c]) ∧
      buf'.length = buf.length := by
  obtain ⟨hnul, rest, rfl⟩ := exists_of_stringOf h
  cases rest with
  | nil => simp at hfits
  | cons d rest =>
      refine ⟨text ++ [c] ++ 0 :: rest, ?_, stringOf_append ?_ _, by simp⟩
      · simp [push, store]
      · simpa using ⟨hnul, Ne.symm hc⟩

end HavokMud.Sequence
