import HavokMud.Buffer.Objects
import HavokMud.Interaction.Guards

/-!
# From the socket to the input thread

`ConnectionThread` reads from a socket into the buffer of its connection, and `InputThread` takes
the bytes out.  A failed read is counted as data: its -1 moves the tail back.  At the end of the
input the buffer is destroyed before the player is marked, and `InputThread` may still look into it.
-/

namespace HavokMud.Buffer

open Interaction

/-- What `read` returns. -/
inductive ReadResult
  | data (bytes : List UInt8)
  | eof
  | error

/-- A connection with its player, and the bytes that have gone from the socket to `InputThread`. -/
structure Link where
  /-- The buffer, until it is destroyed. -/
  buffer : Option BufferObject
  flush : Bool
  /-- The bytes read from the socket so far. -/
  received : List UInt8
  /-- The bytes that `InputThread` has taken so far. -/
  handed : List UInt8
  /-- Memory that is not of a buffer was used. -/
  fault : Bool

/-- The socket is ready, `connRemove` marks the player, or `InputThread` gets `CONN_INPUT_AVAIL`. -/
inductive Event
  | readable (result : ReadResult)
  | marked
  | input

/-- `read` has put bytes at an index. -/
def writeAt (data : List UInt8) (index : ℕ) (bytes : List UInt8) : List UInt8 :=
  data.take index ++ (bytes ++ data.drop (index + bytes.length))

/-- `ConnectionThread` finds the socket readable.  A read gives at most as many bytes as it asks
for. -/
def Link.readable (link : Link) (buffer : BufferObject) : ReadResult → Option Link
  | .data bytes =>
      let count := bufferAvailWrite buffer
      if count = 0 then some link
      else
        match bufferGetWrite buffer with
        | none => none
        | some index =>
            if bytes ≠ [] ∧ bytes.length ≤ count.toNat then some { link with
              buffer := some (bufferWroteBytes
                { buffer with data := writeAt buffer.data index bytes } (UInt32.ofNat bytes.length))
              received := link.received ++ bytes }
            else none
  | .eof => if bufferAvailWrite buffer = 0 then some link else some { link with buffer := none }
  | .error =>
      if bufferAvailWrite buffer = 0 then some link
      else some { link with buffer := some (bufferWroteBytes buffer (-1)) }

/-- `InputThread` gets `CONN_INPUT_AVAIL`. -/
def Link.input (link : Link) : Link :=
  if link.flush then link
  else
    match link.buffer with
    | none => { link with fault := true }
    | some buffer =>
        match takeInput buffer with
        | none => link
        | some (bytes, buffer') =>
            if buffer.head.toNat + (bufferAvailRead buffer).toNat ≤ buffer.data.length then
              { link with
                buffer := some buffer'
                handed := link.handed ++ bytes }
            else { link with fault := true }

def Link.step (link : Link) : Event → Option Link
  | .readable result => link.buffer.bind fun buffer ↦ link.readable buffer result
  | .marked => if link.buffer.isNone then some { link with flush := true } else none
  | .input => some link.input

/-- A new connection. -/
def Link.create : Link :=
  ⟨bufferCreate 8192, false, [], [], false⟩

/-- What is to hold of a connection. -/
structure Link.Good (link : Link) : Prop where
  wf : ∀ buffer ∈ link.buffer, buffer.Wf
  handed : ∀ buffer ∈ link.buffer, link.received = link.handed ++ buffer.contents
  destroyed : link.handed <+: link.received
  fault : link.fault = false

/-- No read fails, and `InputThread` does not look for a buffer that was destroyed. -/
def Link.Guard (link : Link) : Event → Prop
  | .readable .error => ∀ buffer ∈ link.buffer, bufferAvailWrite buffer = 0
  | .input => link.flush = true ∨ link.buffer ≠ none
  | _ => True

/-! ## Buffers -/

section Buffers

variable {buffer : BufferObject}

theorem length_contents (h : buffer.Wf) (hdata : buffer.data.length = buffer.size.toNat) :
    buffer.contents.length = buffer.tail.toNat - buffer.head.toNat := by
  have htail := UInt32.le_iff_toNat_le.mp h.tail
  unfold BufferObject.contents
  rw [List.length_take, List.length_drop]
  omega

theorem toNat_bufferAvailWrite (h : buffer.Wf) :
    (bufferAvailWrite buffer).toNat = buffer.size.toNat - buffer.tail.toNat :=
  UInt32.toNat_sub_of_le _ _ h.tail

theorem toNat_bufferAvailRead (h : buffer.Wf) :
    (bufferAvailRead buffer).toNat = buffer.tail.toNat - buffer.head.toNat :=
  UInt32.toNat_sub_of_le _ _ h.head

/-- Bytes are put behind the contents. -/
theorem contents_writeAt {data bytes : List UInt8} {head tail : ℕ} (hhead : head ≤ tail)
    (htail : tail ≤ data.length) :
    ((writeAt data tail bytes).drop head).take (tail + bytes.length - head) =
      (data.drop head).take (tail - head) ++ bytes := by
  have hlength : (data.take tail).length = tail := by
    rw [List.length_take]
    omega
  have hkept : ((data.take tail).drop head).length = tail - head := by
    rw [List.length_drop, hlength]
  have htake : tail + bytes.length - head =
      ((data.take tail).drop head).length + bytes.length := by omega
  unfold writeAt
  rw [List.drop_append_of_le_length (by omega), htake, List.take_length_add_append, List.take_left,
    List.drop_take]

theorem length_writeAt {data bytes : List UInt8} {index : ℕ}
    (h : index + bytes.length ≤ data.length) : (writeAt data index bytes).length = data.length := by
  unfold writeAt
  rw [List.length_append, List.length_append, List.length_take, List.length_drop]
  omega

/-- A read that gave bytes. -/
theorem wrote_data {bytes : List UInt8} (h : buffer.Wf)
    (hdata : buffer.data.length = buffer.size.toNat)
    (hroom : bytes.length ≤ (bufferAvailWrite buffer).toNat) :
    (bufferWroteBytes { buffer with data := writeAt buffer.data buffer.tail.toNat bytes }
        (UInt32.ofNat bytes.length)).Wf ∧
      (bufferWroteBytes { buffer with data := writeAt buffer.data buffer.tail.toNat bytes }
        (UInt32.ofNat bytes.length)).contents = buffer.contents ++ bytes := by
  rw [toNat_bufferAvailWrite h] at hroom
  have hhead := UInt32.le_iff_toNat_le.mp h.head
  have htail := UInt32.le_iff_toNat_le.mp h.tail
  have hsize : buffer.size.toNat < 2 ^ 32 := buffer.size.toNat_lt
  have hsum : (buffer.tail + UInt32.ofNat bytes.length).toNat =
      buffer.tail.toNat + bytes.length := by
    rw [UInt32.toNat_add, UInt32.toNat_ofNat']
    omega
  unfold bufferWroteBytes
  constructor
  · apply bufferConditionUpdate_wf
    · rw [UInt32.le_iff_toNat_le, hsum]
      change buffer.head.toNat ≤ _
      omega
    · rw [UInt32.le_iff_toNat_le, hsum]
      change _ ≤ buffer.size.toNat
      omega
  · rw [contents_bufferConditionUpdate]
    unfold BufferObject.contents
    dsimp only
    rw [hsum]
    exact contents_writeAt hhead (by omega)

/-- All contents are taken at once. -/
theorem takeInput_eq (h : buffer.Wf) (hdata : buffer.data.length = buffer.size.toNat) :
    (takeInput buffer = none ∧ buffer.contents = []) ∨
      (takeInput buffer = some (buffer.contents, bufferReadBytes buffer (bufferAvailRead buffer)) ∧
        (bufferReadBytes buffer (bufferAvailRead buffer)).Wf ∧
        (bufferReadBytes buffer (bufferAvailRead buffer)).contents = []) := by
  have hhead := UInt32.le_iff_toNat_le.mp h.head
  have havail := toNat_bufferAvailRead h
  unfold takeInput
  dsimp only
  by_cases hzero : bufferAvailRead buffer = 0
  · left
    refine ⟨if_pos hzero, ?_⟩
    rw [← List.length_eq_zero_iff, length_contents h hdata, ← havail, hzero]
    rfl
  · right
    have hne : buffer.empty = false := by
      rw [← Bool.not_eq_true, h.empty]
      intro heq
      apply hzero
      unfold bufferAvailRead
      rw [heq, UInt32.sub_self]
    have hread : bufferGetRead buffer = some buffer.head.toNat :=
      if_neg (Bool.eq_false_iff.mp hne)
    have hmeet : buffer.head + bufferAvailRead buffer = buffer.tail := by
      rw [← UInt32.toNat_inj, UInt32.toNat_add, havail]
      have htail : buffer.tail.toNat < 2 ^ 32 := buffer.tail.toNat_lt
      omega
    rw [if_neg hzero, hread, Option.getD_some, havail]
    refine ⟨rfl, ?_, ?_⟩
    · apply bufferConditionUpdate_wf
      · change buffer.head + _ ≤ buffer.tail
        rw [hmeet]
        exact UInt32.le_refl _
      · exact h.tail
    · unfold bufferReadBytes
      rw [contents_bufferConditionUpdate]
      unfold BufferObject.contents
      dsimp only
      rw [hmeet, Nat.sub_self, List.take_zero]

/-- A failed read spoils the flags or takes back a byte. -/
theorem wrote_error (h : buffer.Wf) (hdata : buffer.data.length = buffer.size.toNat)
    (hafter : (bufferWroteBytes buffer (-1)).Wf) :
    (bufferWroteBytes buffer (-1)).contents.length ≠ buffer.contents.length := by
  have hdata' : (bufferWroteBytes buffer (-1)).data.length =
      (bufferWroteBytes buffer (-1)).size.toNat := by
    unfold bufferWroteBytes
    rw [data_bufferConditionUpdate, size_bufferConditionUpdate]
    exact hdata
  have hhead := UInt32.le_iff_toNat_le.mp h.head
  have htail : buffer.tail.toNat < 2 ^ 32 := buffer.tail.toNat_lt
  have hminus : (-1 : UInt32).toNat = 2 ^ 32 - 1 := by decide
  have hsum : (buffer.tail + -1).toNat = (buffer.tail.toNat + (2 ^ 32 - 1)) % 2 ^ 32 := by
    rw [UInt32.toNat_add, hminus]
  rw [length_contents hafter hdata', length_contents h hdata]
  have hafter_head := UInt32.le_iff_toNat_le.mp hafter.head
  unfold bufferWroteBytes bufferConditionUpdate at hafter_head ⊢
  dsimp only at hafter_head ⊢
  split_ifs at hafter_head ⊢ with heq
  · rw [← UInt32.toNat_inj, hsum] at heq
    change 0 - 0 ≠ _
    omega
  · dsimp only at hafter_head ⊢
    rw [hsum] at hafter_head ⊢
    omega

end Buffers

/-! ## Runs -/

/-- A good connection whose buffer has all its memory. -/
structure Link.Inv (link : Link) : Prop extends link.Good where
  data : ∀ buffer ∈ link.buffer, buffer.data.length = buffer.size.toNat

section Runs

variable {link link' : Link}

theorem inv_create : Link.create.Inv := by
  have hbuffer : ∀ buffer ∈ Link.create.buffer,
      buffer = ⟨8192, 0, 0, List.replicate 8192 0, false, true⟩ := by
    intro buffer hbuffer
    exact (Option.some.inj hbuffer).symm
  refine ⟨⟨?_, ?_, List.nil_prefix, rfl⟩, ?_⟩
  · intro buffer hmem
    rw [hbuffer buffer hmem]
    exact ⟨by decide, by decide, by decide, by decide⟩
  · intro buffer hmem
    rw [hbuffer buffer hmem]
    rfl
  · intro buffer hmem
    rw [hbuffer buffer hmem]
    exact List.length_replicate

/-- A buffer takes the place of another. -/
theorem Link.Inv.replace (h : link.Inv) {buffer : BufferObject} {received handed : List UInt8}
    (hwf : buffer.Wf) (hdata : buffer.data.length = buffer.size.toNat)
    (hbytes : received = handed ++ buffer.contents) :
    Link.Inv { link with buffer := some buffer, received := received, handed := handed } := by
  have hsame : ∀ other ∈ some buffer, other = buffer := fun other hother ↦
    (Option.some.inj hother).symm
  refine ⟨⟨?_, ?_, ⟨_, hbytes.symm⟩, h.fault⟩, ?_⟩
  · intro other hother
    rw [hsame other hother]
    exact hwf
  · intro other hother
    rw [hsame other hother]
    exact hbytes
  · intro other hother
    rw [hsame other hother]
    exact hdata

/-- The socket is readable and no read fails. -/
theorem Link.Inv.readable {buffer : BufferObject} {result : ReadResult} (h : link.Inv)
    (hbuffer : link.buffer = some buffer)
    (hresult : result = .error → bufferAvailWrite buffer = 0)
    (hstep : link.readable buffer result = some link') : link'.Inv := by
  have hwf := h.wf buffer hbuffer
  have hdata := h.data buffer hbuffer
  have hbytes := h.handed buffer hbuffer
  cases result with
  | data bytes =>
      unfold Link.readable at hstep
      dsimp only at hstep
      by_cases hcount : bufferAvailWrite buffer = 0
      · rw [if_pos hcount] at hstep
        obtain rfl := Option.some.inj hstep
        exact h
      · rw [if_neg hcount] at hstep
        split at hstep
        · cases hstep
        next index hindex =>
        split_ifs at hstep with hroom
        obtain rfl := Option.some.inj hstep
        have htail : index = buffer.tail.toNat := by
          unfold bufferGetWrite at hindex
          split_ifs at hindex
          exact (Option.some.inj hindex).symm
        subst htail
        obtain ⟨hwf', hcontents⟩ := wrote_data hwf hdata hroom.2
        have hle : buffer.tail.toNat + bytes.length ≤ buffer.data.length := by
          have htail := UInt32.le_iff_toNat_le.mp hwf.tail
          have havail := toNat_bufferAvailWrite hwf
          omega
        refine h.replace hwf' ?_ ?_
        · unfold bufferWroteBytes
          rw [data_bufferConditionUpdate, size_bufferConditionUpdate, length_writeAt hle]
          exact hdata
        · rw [hcontents, hbytes, List.append_assoc]
  | eof =>
      unfold Link.readable at hstep
      dsimp only at hstep
      split_ifs at hstep with hcount
      · obtain rfl := Option.some.inj hstep
        exact h
      · obtain rfl := Option.some.inj hstep
        exact ⟨⟨fun _ hmem ↦ (by cases hmem), fun _ hmem ↦ (by cases hmem), h.destroyed, h.fault⟩,
          fun _ hmem ↦ (by cases hmem)⟩
  | error =>
      unfold Link.readable at hstep
      dsimp only at hstep
      rw [if_pos (hresult rfl)] at hstep
      obtain rfl := Option.some.inj hstep
      exact h

/-- `InputThread` finds the buffer. -/
theorem Link.Inv.input (h : link.Inv) (hguard : link.flush = true ∨ link.buffer ≠ none) :
    link.input.Inv := by
  unfold Link.input
  split_ifs with hflush
  · exact h
  · obtain ⟨buffer, hbuffer⟩ := Option.ne_none_iff_exists'.mp (hguard.resolve_left hflush)
    have hwf := h.wf buffer hbuffer
    have hdata := h.data buffer hbuffer
    have hbytes := h.handed buffer hbuffer
    rw [hbuffer]
    dsimp only
    rcases takeInput_eq hwf hdata with ⟨hnone, -⟩ | ⟨hsome, hwf', hempty⟩
    · rw [hnone]
      exact h
    · have hinside : buffer.head.toNat + (bufferAvailRead buffer).toNat ≤ buffer.data.length := by
        have hhead := UInt32.le_iff_toNat_le.mp hwf.head
        have htail := UInt32.le_iff_toNat_le.mp hwf.tail
        rw [toNat_bufferAvailRead hwf]
        omega
      rw [hsome]
      dsimp only
      rw [if_pos hinside]
      refine h.replace hwf' ?_ ?_
      · unfold bufferReadBytes
        rw [data_bufferConditionUpdate, size_bufferConditionUpdate]
        exact hdata
      · rw [hempty, List.append_nil]
        exact hbytes

/-- A step that meets the guard. -/
theorem Link.Inv.step {e : Event} (h : link.Inv) (hguard : link.Guard e)
    (hstep : link.step e = some link') : link'.Inv := by
  cases e with
  | readable result =>
      obtain ⟨buffer, hbuffer, hread⟩ := Option.bind_eq_some_iff.mp hstep
      apply h.readable hbuffer _ hread
      rintro rfl
      exact hguard buffer hbuffer
  | marked =>
      unfold Link.step at hstep
      dsimp only at hstep
      split_ifs at hstep
      obtain rfl := Option.some.inj hstep
      exact ⟨⟨h.wf, h.handed, h.destroyed, h.fault⟩, h.data⟩
  | input =>
      obtain rfl := Option.some.inj hstep
      exact h.input hguard

/-- A step that does not. -/
theorem Link.Inv.spoils {e : Event} (h : link.Inv) (hguard : ¬ link.Guard e)
    (hstep : link.step e = some link') : ¬ link'.Good := by
  intro hgood
  cases e with
  | readable result =>
      obtain ⟨buffer, hbuffer, hread⟩ := Option.bind_eq_some_iff.mp hstep
      cases result with
      | data _ | eof => exact hguard trivial
      | error =>
          unfold Link.readable at hread
          dsimp only at hread
          split_ifs at hread with hcount
          · apply hguard
            intro other hother
            rw [hbuffer] at hother
            obtain rfl := Option.some.inj hother
            exact hcount
          · obtain rfl := Option.some.inj hread
            have hbytes := hgood.handed _ rfl
            have hbytes' := h.handed buffer hbuffer
            have heq := List.append_cancel_left (hbytes'.symm.trans hbytes)
            exact wrote_error (h.wf buffer hbuffer) (h.data buffer hbuffer) (hgood.wf _ rfl)
              (congrArg List.length heq.symm)
  | marked => exact hguard trivial
  | input =>
      obtain rfl := Option.some.inj hstep
      obtain ⟨hflush, hbuffer⟩ := not_or.mp hguard
      have hfault : link.input.fault = true := by
        unfold Link.input
        rw [if_neg hflush, not_not.mp hbuffer]
      rw [hgood.fault] at hfault
      cases hfault

end Runs

end HavokMud.Buffer
