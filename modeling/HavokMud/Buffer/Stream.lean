import HavokMud.Buffer.Sockets

/-!
# A buffer as a stream

Whoever writes to a buffer puts bytes where `BufferGetWrite` points and tells how many they were,
and whoever reads takes bytes from where `BufferGetRead` points.  What is read is what was written,
in its order, until the buffer is cleared.
-/

namespace HavokMud.Buffer

open Interaction

/-- A use of a buffer: bytes are written, a number of bytes is read, or the buffer is cleared. -/
inductive Op
  | wrote (bytes : List UInt8)
  | read (count : UInt32)
  | clear

/-- A buffer with the bytes that were produced and consumed since it was cleared. -/
structure Stream where
  buffer : BufferObject
  produced : List UInt8
  consumed : List UInt8

/-- The bytes are put where `BufferGetWrite` points. -/
def fill (buffer : BufferObject) (bytes : List UInt8) : BufferObject :=
  match bufferGetWrite buffer with
  | none => buffer
  | some index => { buffer with data := writeAt buffer.data index bytes }

/-- The bytes from where `BufferGetRead` points. -/
def taken (buffer : BufferObject) (count : UInt32) : List UInt8 :=
  match bufferGetRead buffer with
  | none => []
  | some index => (buffer.data.drop index).take count.toNat

/-- No more is written than `BufferAvailWrite` and no more is read than `BufferAvailRead`. -/
def Stream.step (s : Stream) : Op → Option Stream
  | .wrote bytes =>
      if bytes.length ≤ (bufferAvailWrite s.buffer).toNat then
        some { s with
          buffer := bufferWroteBytes (fill s.buffer bytes) (UInt32.ofNat bytes.length)
          produced := s.produced ++ bytes }
      else none
  | .read count =>
      if count ≤ bufferAvailRead s.buffer then
        some { s with
          buffer := bufferReadBytes s.buffer count
          consumed := s.consumed ++ taken s.buffer count }
      else none
  | .clear => some ⟨bufferClear s.buffer, [], []⟩

/-- What is to hold of a buffer and its bytes. -/
structure Stream.Good (s : Stream) : Prop where
  head : s.buffer.head ≤ s.buffer.tail
  tail : s.buffer.tail ≤ s.buffer.size
  empty : s.buffer.empty = true ↔ s.buffer.head = s.buffer.tail
  zero : s.buffer.head = s.buffer.tail → s.buffer.head = 0 ∧ s.buffer.tail = 0
  full : s.buffer.full = true ↔ s.buffer.tail = s.buffer.size
  bytes : ∃ outstanding, s.produced = s.consumed ++ outstanding ∧
    outstanding.length = (bufferAvailRead s.buffer).toNat

/-- The buffer is well formed and holds the bytes that are outstanding. -/
structure Stream.Inv (s : Stream) (size : UInt32) : Prop where
  wf : s.buffer.Wf
  size : s.buffer.size = size
  data : s.buffer.data.length = s.buffer.size.toNat
  zero : s.buffer.head = s.buffer.tail → s.buffer.head = 0 ∧ s.buffer.tail = 0
  bytes : s.produced = s.consumed ++ s.buffer.contents

variable {s s' : Stream} {size : UInt32} {buffer : BufferObject}

theorem Stream.Inv.good (h : s.Inv size) : s.Good where
  head := h.wf.head
  tail := h.wf.tail
  empty := h.wf.empty
  zero := h.zero
  full := by
    rw [h.wf.full]
    exact ⟨fun hle ↦ UInt32.le_antisymm h.wf.tail hle, fun heq ↦ heq ▸ UInt32.le_refl _⟩
  bytes := ⟨_, h.bytes, by rw [length_contents h.wf h.data, toNat_bufferAvailRead h.wf]⟩

/-- Where head and tail meet, both are zero. -/
theorem zero_bufferConditionUpdate
    (heq : (bufferConditionUpdate buffer).head = (bufferConditionUpdate buffer).tail) :
    (bufferConditionUpdate buffer).head = 0 ∧ (bufferConditionUpdate buffer).tail = 0 := by
  unfold bufferConditionUpdate at heq ⊢
  dsimp only at heq ⊢
  split_ifs at heq ⊢ with hmeet
  · exact ⟨rfl, rfl⟩
  · exact absurd heq hmeet

theorem fill_eq (h : buffer.Wf) {bytes : List UInt8}
    (hroom : bytes.length ≤ (bufferAvailWrite buffer).toNat) :
    fill buffer bytes = { buffer with data := writeAt buffer.data buffer.tail.toNat bytes } := by
  unfold fill bufferGetWrite
  split_ifs with hfull
  · -- there is no room, so there are no bytes
    have hle := UInt32.le_iff_toNat_le.mp (h.full.mp hfull)
    have havail := toNat_bufferAvailWrite h
    have hnil : bytes = [] := List.length_eq_zero_iff.mp (by omega)
    subst hnil
    simp [writeAt]
  · rfl

/-- Some of the contents are read. -/
theorem read_data (h : buffer.Wf) {count : UInt32} (hcount : count ≤ bufferAvailRead buffer) :
    (bufferReadBytes buffer count).Wf ∧
      taken buffer count ++ (bufferReadBytes buffer count).contents = buffer.contents := by
  have hhead := UInt32.le_iff_toNat_le.mp h.head
  have hcount' := UInt32.le_iff_toNat_le.mp hcount
  rw [toNat_bufferAvailRead h] at hcount'
  have htail : buffer.tail.toNat < 2 ^ 32 := buffer.tail.toNat_lt
  have hsum : (buffer.head + count).toNat = buffer.head.toNat + count.toNat := by
    rw [UInt32.toNat_add]
    omega
  have htaken : taken buffer count = (buffer.data.drop buffer.head.toNat).take count.toNat := by
    unfold taken bufferGetRead
    split_ifs with hempty
    · -- there is nothing to read
      have hzero : count.toNat = 0 := by
        have heq := congrArg UInt32.toNat (h.empty.mp hempty)
        omega
      rw [hzero, List.take_zero]
    · rfl
  constructor
  · apply bufferConditionUpdate_wf
    · rw [UInt32.le_iff_toNat_le, hsum]
      change _ ≤ buffer.tail.toNat
      omega
    · exact h.tail
  · unfold bufferReadBytes
    rw [contents_bufferConditionUpdate, htaken]
    unfold BufferObject.contents
    dsimp only
    have hlength : buffer.tail.toNat - buffer.head.toNat =
        count.toNat + (buffer.tail.toNat - (buffer.head.toNat + count.toNat)) := by
      omega
    rw [hsum, hlength, List.take_add, List.drop_drop]

theorem Stream.Inv.step (h : s.Inv size) {op : Op} (hstep : s.step op = some s') :
    s'.Inv size := by
  cases op with
  | wrote bytes =>
      unfold Stream.step at hstep
      dsimp only at hstep
      split_ifs at hstep with hroom
      obtain rfl := Option.some.inj hstep
      obtain ⟨hwf, hcontents⟩ := wrote_data h.wf h.data hroom
      rw [fill_eq h.wf hroom]
      have hle : s.buffer.tail.toNat + bytes.length ≤ s.buffer.data.length := by
        have htail := UInt32.le_iff_toNat_le.mp h.wf.tail
        have hdata := h.data
        rw [toNat_bufferAvailWrite h.wf] at hroom
        omega
      refine ⟨hwf, ?_, ?_, zero_bufferConditionUpdate, ?_⟩
      · exact (size_bufferConditionUpdate _).trans h.size
      · unfold bufferWroteBytes
        rw [data_bufferConditionUpdate, size_bufferConditionUpdate, length_writeAt hle]
        exact h.data
      · rw [hcontents, h.bytes, List.append_assoc]
  | read count =>
      unfold Stream.step at hstep
      dsimp only at hstep
      split_ifs at hstep with hcount
      obtain rfl := Option.some.inj hstep
      obtain ⟨hwf, hcontents⟩ := read_data h.wf hcount
      refine ⟨hwf, ?_, ?_, zero_bufferConditionUpdate, ?_⟩
      · exact (size_bufferConditionUpdate _).trans h.size
      · unfold bufferReadBytes
        rw [data_bufferConditionUpdate, size_bufferConditionUpdate]
        exact h.data
      · dsimp only
        rw [List.append_assoc, hcontents]
        exact h.bytes
  | clear =>
      obtain rfl := Option.some.inj hstep
      refine ⟨?_, ?_, ?_, zero_bufferConditionUpdate, ?_⟩
      · apply bufferConditionUpdate_wf
        · exact UInt32.le_refl _
        · exact UInt32.le_iff_toNat_le.mpr (Nat.zero_le _)
      · exact (size_bufferConditionUpdate _).trans h.size
      · unfold bufferClear
        rw [data_bufferConditionUpdate, size_bufferConditionUpdate]
        exact h.data
      · unfold bufferClear
        rw [contents_bufferConditionUpdate]
        simp [BufferObject.contents]

end HavokMud.Buffer
