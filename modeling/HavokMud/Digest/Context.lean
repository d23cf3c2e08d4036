import Mathlib.Data.UInt
import HavokMud.Sequence.Blocks
import HavokMud.Sequence.Buffers

/-!
# MD5

`MD5Transform` works a block of 64 bytes into the four words of the state, in four rounds of
sixteen steps.  The words of a block are read with their lowest byte first, and the words of the
digest are written in the same way.

A context holds the state, the number of bits so far and the bytes that do not fill a block yet.
`opiemd5update` takes the next part of the message, and `opiemd5final` pads the message and returns
the digest.  Lengths are `unsigned int`, and to read or write outside a buffer is to fail.
-/

namespace HavokMud.Digest

open Sequence

/-! ## Words and bytes -/

/-- What `EEncode` writes for a word. -/
def wordBytes (word : UInt32) : List UInt8 :=
  [(word &&& 0xff).toUInt8, ((word >>> 8) &&& 0xff).toUInt8, ((word >>> 16) &&& 0xff).toUInt8,
    ((word >>> 24) &&& 0xff).toUInt8]

/-- `EEncode`. -/
def eEncode (input : List UInt32) : List UInt8 :=
  input.flatMap wordBytes

/-- `EDecode`. -/
def eDecode : List UInt8 → List UInt32
  | b₀ :: b₁ :: b₂ :: b₃ :: input =>
      (b₀.toUInt32 ||| b₁.toUInt32 <<< 8 ||| b₂.toUInt32 <<< 16 ||| b₃.toUInt32 <<< 24) ::
        eDecode input
  | _ => []

/-! ## The steps -/

def rotateLeft (x n : UInt32) : UInt32 :=
  x <<< n ||| x >>> (32 - n)

/-- `F`. -/
def funF (x y z : UInt32) : UInt32 :=
  x &&& y ||| ~~~x &&& z

/-- `G`. -/
def funG (x y z : UInt32) : UInt32 :=
  x &&& z ||| y &&& ~~~z

/-- `H`. -/
def funH (x y z : UInt32) : UInt32 :=
  x ^^^ y ^^^ z

/-- `I`. -/
def funI (x y z : UInt32) : UInt32 :=
  y ^^^ (x ||| ~~~z)

/-- What the four macros of a step have in common. -/
def mix (f : UInt32 → UInt32 → UInt32 → UInt32) (a b c d x s ac : UInt32) : UInt32 :=
  rotateLeft (a + (f b c d + x + ac)) s + b

/-- `FF`. -/
def stepF : UInt32 → UInt32 → UInt32 → UInt32 → UInt32 → UInt32 → UInt32 → UInt32 :=
  mix funF

/-- `GG`. -/
def stepG : UInt32 → UInt32 → UInt32 → UInt32 → UInt32 → UInt32 → UInt32 → UInt32 :=
  mix funG

/-- `HH`. -/
def stepH : UInt32 → UInt32 → UInt32 → UInt32 → UInt32 → UInt32 → UInt32 → UInt32 :=
  mix funH

/-- `II`. -/
def stepI : UInt32 → UInt32 → UInt32 → UInt32 → UInt32 → UInt32 → UInt32 → UInt32 :=
  mix funI

/-- The four words `state[0]` to `state[3]`. -/
structure State where
  a : UInt32
  b : UInt32
  c : UInt32
  d : UInt32
deriving DecidableEq

def State.words (state : State) : List UInt32 :=
  [state.a, state.b, state.c, state.d]

/-- `MD5Transform`. -/
def md5Transform (state : State) (block : List UInt8) : State :=
  let x := fun i ↦ (eDecode block).getD i 0
  let a := state.a
  let b := state.b
  let c := state.c
  let d := state.d
  -- round 1
  let a := stepF a b c d (x 0) 7 0xd76aa478
  let d := stepF d a b c (x 1) 12 0xe8c7b756
  let c := stepF c d a b (x 2) 17 0x242070db
  let b := stepF b c d a (x 3) 22 0xc1bdceee
  let a := stepF a b c d (x 4) 7 0xf57c0faf
  let d := stepF d a b c (x 5) 12 0x4787c62a
  let c := stepF c d a b (x 6) 17 0xa8304613
  let b := stepF b c d a (x 7) 22 0xfd469501
  let a := stepF a b c d (x 8) 7 0x698098d8
  let d := stepF d a b c (x 9) 12 0x8b44f7af
  let c := stepF c d a b (x 10) 17 0xffff5bb1
  let b := stepF b c d a (x 11) 22 0x895cd7be
  let a := stepF a b c d (x 12) 7 0x6b901122
  let d := stepF d a b c (x 13) 12 0xfd987193
  let c := stepF c d a b (x 14) 17 0xa679438e
  let b := stepF b c d a (x 15) 22 0x49b40821
  -- round 2
  let a := stepG a b c d (x 1) 5 0xf61e2562
  let d := stepG d a b c (x 6) 9 0xc040b340
  let c := stepG c d a b (x 11) 14 0x265e5a51
  let b := stepG b c d a (x 0) 20 0xe9b6c7aa
  let a := stepG a b c d (x 5) 5 0xd62f105d
  let d := stepG d a b c (x 10) 9 0x2441453
  let c := stepG c d a b (x 15) 14 0xd8a1e681
  let b := stepG b c d a (x 4) 20 0xe7d3fbc8
  let a := stepG a b c d (x 9) 5 0x21e1cde6
  let d := stepG d a b c (x 14) 9 0xc33707d6
  let c := stepG c d a b (x 3) 14 0xf4d50d87
  let b := stepG b c d a (x 8) 20 0x455a14ed
  let a := stepG a b c d (x 13) 5 0xa9e3e905
  let d := stepG d a b c (x 2) 9 0xfcefa3f8
  let c := stepG c d a b (x 7) 14 0x676f02d9
  let b := stepG b c d a (x 12) 20 0x8d2a4c8a
  -- round 3
  let a := stepH a b c d (x 5) 4 0xfffa3942
  let d := stepH d a b c (x 8) 11 0x8771f681
  let c := stepH c d a b (x 11) 16 0x6d9d6122
  let b := stepH b c d a (x 14) 23 0xfde5380c
  let a := stepH a b c d (x 1) 4 0xa4beea44
  let d := stepH d a b c (x 4) 11 0x4bdecfa9
  let c := stepH c d a b (x 7) 16 0xf6bb4b60
  let b := stepH b c d a (x 10) 23 0xbebfbc70
  let a := stepH a b c d (x 13) 4 0x289b7ec6
  let d := stepH d a b c (x 0) 11 0xeaa127fa
  let c := stepH c d a b (x 3) 16 0xd4ef3085
  let b := stepH b c d a (x 6) 23 0x4881d05
  let a := stepH a b c d (x 9) 4 0xd9d4d039
  let d := stepH d a b c (x 12) 11 0xe6db99e5
  let c := stepH c d a b (x 15) 16 0x1fa27cf8
  let b := stepH b c d a (x 2) 23 0xc4ac5665
  -- round 4
  let a := stepI a b c d (x 0) 6 0xf4292244
  let d := stepI d a b c (x 7) 10 0x432aff97
  let c := stepI c d a b (x 14) 15 0xab9423a7
  let b := stepI b c d a (x 5) 21 0xfc93a039
  let a := stepI a b c d (x 12) 6 0x655b59c3
  let d := stepI d a b c (x 3) 10 0x8f0ccc92
  let c := stepI c d a b (x 10) 15 0xffeff47d
  let b := stepI b c d a (x 1) 21 0x85845dd1
  let a := stepI a b c d (x 8) 6 0x6fa87e4f
  let d := stepI d a b c (x 15) 10 0xfe2ce6e0
  let c := stepI c d a b (x 6) 15 0xa3014314
  let b := stepI b c d a (x 13) 21 0x4e0811a1
  let a := stepI a b c d (x 4) 6 0xf7537e82
  let d := stepI d a b c (x 11) 10 0xbd3af235
  let c := stepI c d a b (x 2) 15 0x2ad7d2bb
  let b := stepI b c d a (x 9) 21 0xeb86d391
  ⟨state.a + a, state.b + b, state.c + c, state.d + d⟩

/-! ## Messages in parts -/

/-- `struct opiemdx_ctx`. -/
structure Context where
  state : State
  count0 : UInt32
  count1 : UInt32
  buffer : List UInt8

/-- The magic initialization constants. -/
def initialState : State :=
  ⟨0x67452301, 0xefcdab89, 0x98badcfe, 0x10325476⟩

/-- `opiemd5init`.  `CREATE` clears the buffer. -/
def opiemd5init : Context :=
  ⟨initialState, 0, 0, List.replicate 64 0⟩

/-- The blocks of the input from index `i` on.  The addition in the condition may wrap around. -/
def transformLoop (input : List UInt8) : ℕ → ℕ → State → Option (ℕ × State)
  | 0, _, _ => none
  | turns + 1, i, state =>
      if (i + 63) % 4294967296 < input.length then
        if i + 64 ≤ input.length then
          transformLoop input turns (i + 64) (md5Transform state ((input.drop i).take 64))
        else none
      else some (i, state)

/-- `opiemd5update`. -/
def opiemd5update (context : Context) (input : List UInt8) : Option Context := do
  let inputLen := UInt32.ofNat input.length
  let index := ((context.count0 >>> 3) &&& 0x3f).toNat
  let count0 := context.count0 + inputLen <<< 3
  let count1 := if count0 < inputLen <<< 3 then context.count1 + 1 else context.count1
  let count1 := count1 + inputLen >>> 29
  let partLen := 64 - index
  if partLen ≤ input.length then
    let buffer ← memcpy context.buffer index (input.take partLen)
    let (i, state) ←
      transformLoop input (input.length + 1) partLen (md5Transform context.state buffer)
    let buffer ← memcpy buffer 0 (input.drop i)
    return ⟨state, count0, count1, buffer⟩
  else
    let buffer ← memcpy context.buffer index input
    return ⟨context.state, count0, count1, buffer⟩

/-- `PADDING`. -/
def padding : List UInt8 :=
  0x80 :: List.replicate 63 0

/-- `opiemd5final`. -/
def opiemd5final (context : Context) : Option (List UInt8) := do
  let bits := eEncode [context.count0, context.count1]
  let index := ((context.count0 >>> 3) &&& 0x3f).toNat
  let padLen := if index < 56 then 56 - index else 120 - index
  let context ← opiemd5update context (padding.take padLen)
  let context ← opiemd5update context bits
  return eEncode context.state.words

/-- A message in parts. -/
def digestOfParts (parts : List (List UInt8)) : Option (List UInt8) := do
  let context ← parts.foldlM opiemd5update opiemd5init
  opiemd5final context

/-! ## The digest of a message -/

/-- The number of bits of a message as eight bytes, the lowest first. -/
def lengthBytes (length : ℕ) : List UInt8 :=
  (List.range 8).map fun i ↦ .ofNat ((8 * length) >>> (8 * i))

/-- A message is padded by a one and zeros to eight bytes less than whole blocks, and its length is
put behind. -/
def paddedMessage (message : List UInt8) : List UInt8 :=
  padded 0x80 0 ((119 - message.length % 64) % 64) message ++ lengthBytes message.length

/-- The digest of a message, from its whole padded text. -/
def md5 (message : List UInt8) : List UInt8 :=
  eEncode (absorb md5Transform 64 initialState (paddedMessage message)).1.words

/-! ## What a context stands for -/

/-- A context after the parts of a message: the state behind the whole blocks, the bytes that are
left, and the number of bits in 64 bits. -/
structure Represents (context : Context) (message : List UInt8) : Prop where
  state : context.state = (absorb md5Transform 64 initialState message).1
  size : context.buffer.length = 64
  pending : context.buffer.take (message.length % 64) =
    (absorb md5Transform 64 initialState message).2
  count0 : context.count0.toNat = 8 * message.length % 4294967296
  count1 : context.count1.toNat = 8 * message.length / 4294967296 % 4294967296

theorem represents_init : Represents opiemd5init [] where
  state := rfl
  size := List.length_replicate
  pending := rfl
  count0 := rfl
  count1 := rfl

variable {context : Context} {message input : List UInt8}

/-- The index into the buffer is read from the number of bits. -/
theorem Represents.index (h : Represents context message) :
    ((context.count0 >>> 3) &&& 0x3f).toNat = message.length % 64 := by
  have hmask : (0x3f : UInt32).toNat = 2 ^ 6 - 1 := rfl
  have hshift : (context.count0 >>> 3).toNat = context.count0.toNat / 8 := by
    rw [UInt32.toNat_shiftRight]
    exact Nat.shiftRight_eq_div_pow _ 3
  rw [UInt32.toNat_and, hmask, Nat.and_two_pow_sub_one_eq_mod, hshift, h.count0]
  omega

/-- The low word of the new number of bits, and what is carried into the high one. -/
theorem count_add {count0 count1 : UInt32} {length n : ℕ} (hn : n < 4294967296)
    (hcount0 : count0.toNat = 8 * length % 4294967296)
    (hcount1 : count1.toNat = 8 * length / 4294967296 % 4294967296) :
    (count0 + UInt32.ofNat n <<< 3).toNat = 8 * (length + n) % 4294967296 ∧
      ((if count0 + UInt32.ofNat n <<< 3 < UInt32.ofNat n <<< 3 then count1 + 1 else count1) +
        UInt32.ofNat n >>> 29).toNat = 8 * (length + n) / 4294967296 % 4294967296 := by
  have hofNat : (UInt32.ofNat n).toNat = n := UInt32.toNat_ofNat_of_lt hn
  have hleft : (UInt32.ofNat n <<< 3).toNat = 8 * n % 4294967296 := by
    rw [UInt32.toNat_shiftLeft, hofNat]
    change n <<< 3 % _ = _
    rw [Nat.shiftLeft_eq]
    omega
  have hright : (UInt32.ofNat n >>> 29).toNat = n / 536870912 := by
    rw [UInt32.toNat_shiftRight, hofNat]
    exact Nat.shiftRight_eq_div_pow _ 29
  have hlow : (count0 + UInt32.ofNat n <<< 3).toNat = 8 * (length + n) % 4294967296 := by
    rw [UInt32.toNat_add, hleft, hcount0]
    omega
  refine ⟨hlow, ?_⟩
  rw [UInt32.toNat_add, hright]
  split_ifs with hcarry
  · rw [UInt32.lt_iff_toNat_lt, hlow, hleft] at hcarry
    rw [UInt32.toNat_add, hcount1]
    change ((_ + 1) % _ + _) % _ = _
    omega
  · rw [UInt32.lt_iff_toNat_lt, hlow, hleft] at hcarry
    rw [hcount1]
    omega

/-- The loop takes all whole blocks. -/
theorem transformLoop_eq (hlength : input.length + 64 ≤ 4294967296) (turns i : ℕ)
    (hi : i ≤ input.length) (hturns : input.length < i + turns) (state : State) :
    ∃ j, transformLoop input turns i state =
        some (j, (absorb md5Transform 64 state (input.drop i)).1) ∧
      input.drop j = (absorb md5Transform 64 state (input.drop i)).2 := by
  induction turns generalizing i state with
  | zero => omega
  | succ turns ih =>
      have hwrap : (i + 63) % 4294967296 = i + 63 := Nat.mod_eq_of_lt (by omega)
      rw [transformLoop, hwrap]
      by_cases hblock : i + 63 < input.length
      · have hcut : input.drop i = (input.drop i).take 64 ++ input.drop (i + 64) := by
          rw [← List.drop_drop, List.take_append_drop]
        have htake : ((input.drop i).take 64).length = 64 := by
          rw [List.length_take, List.length_drop]
          omega
        rw [if_pos hblock, if_pos (Nat.succ_le_of_lt hblock), hcut,
          absorb_block (by omega) htake, ← hcut]
        exact ih (i + 64) (by omega) (by omega) _
      · have hshort : (input.drop i).length < 64 := by
          rw [List.length_drop]
          omega
        rw [if_neg hblock, absorb_of_lt hshort]
        exact ⟨i, rfl, rfl⟩

/-- A part that does not fill the block is kept. -/
theorem Represents.keep (h : Represents context message)
    (hshort : input.length < 64 - message.length % 64) :
    ∃ buffer, memcpy context.buffer (message.length % 64) input = some buffer ∧
      buffer.length = 64 ∧
      absorb md5Transform 64 initialState (message ++ input) =
        (context.state, buffer.take ((message ++ input).length % 64)) := by
  have hpending : (context.buffer.take (message.length % 64)).length = message.length % 64 :=
    List.length_take_of_le (by rw [h.size]; exact (Nat.mod_lt _ (by omega)).le)
  obtain ⟨buffer, hcopy, hsize, htake⟩ :=
    @memcpy_eq_some context.buffer (message.length % 64) input
      (by rw [h.size]; omega)
  refine ⟨buffer, hcopy, hsize.trans h.size, ?_⟩
  have hmod : (message ++ input).length % 64 = message.length % 64 + input.length := by
    rw [List.length_append]
    omega
  calc
    absorb md5Transform 64 initialState (message ++ input) =
        absorb md5Transform 64 context.state
          (context.buffer.take (message.length % 64) ++ input) := by
      rw [absorb_append (by omega), ← h.state, ← h.pending]
    _ = (context.state, context.buffer.take (message.length % 64) ++ input) := by
      apply absorb_of_lt
      rw [List.length_append, hpending]
      omega
    _ = (context.state, buffer.take ((message ++ input).length % 64)) := by
      rw [hmod, htake]

/-- A part that fills the block is worked in at once, up to what does not fill a block again. -/
theorem Represents.fill (h : Represents context message)
    (hlength : input.length + 64 ≤ 4294967296)
    (hlong : 64 - message.length % 64 ≤ input.length) :
    ∃ buffer i state buffer',
      memcpy context.buffer (message.length % 64) (input.take (64 - message.length % 64)) =
        some buffer ∧
      transformLoop input (input.length + 1) (64 - message.length % 64)
        (md5Transform context.state buffer) = some (i, state) ∧
      memcpy buffer 0 (input.drop i) = some buffer' ∧ buffer'.length = 64 ∧
      absorb md5Transform 64 initialState (message ++ input) =
        (state, buffer'.take ((message ++ input).length % 64)) := by
  have hpart : (input.take (64 - message.length % 64)).length = 64 - message.length % 64 :=
    List.length_take_of_le hlong
  have hlt : message.length % 64 < 64 := Nat.mod_lt _ (by omega)
  obtain ⟨buffer, hcopy, hsize, htake⟩ :=
    @memcpy_eq_some context.buffer (message.length % 64)
      (input.take (64 - message.length % 64)) (by rw [h.size, hpart]; omega)
  have hsize : buffer.length = 64 := hsize.trans h.size
  have hbuffer : buffer =
      context.buffer.take (message.length % 64) ++ input.take (64 - message.length % 64) := by
    rw [← htake, hpart, List.take_of_length_le (by omega)]
  obtain ⟨i, hloop, hrest⟩ := transformLoop_eq hlength (input.length + 1)
    (64 - message.length % 64) hlong (by omega) (md5Transform context.state buffer)
  have habsorb : absorb md5Transform 64 initialState (message ++ input) =
      absorb md5Transform 64 (md5Transform context.state buffer)
        (input.drop (64 - message.length % 64)) := by
    calc
      absorb md5Transform 64 initialState (message ++ input) =
          absorb md5Transform 64 context.state
            (context.buffer.take (message.length % 64) ++ input) := by
        rw [absorb_append (by omega), ← h.state, ← h.pending]
      _ = absorb md5Transform 64 context.state
            (buffer ++ input.drop (64 - message.length % 64)) := by
        rw [hbuffer, List.append_assoc, List.take_append_drop]
      _ = _ := absorb_block (by omega) hsize _
  have hrestLength : (input.drop i).length = (message ++ input).length % 64 := by
    rw [hrest, ← habsorb, length_absorb]
  obtain ⟨buffer', hcopy', hsize', htake'⟩ :=
    @memcpy_eq_some buffer 0 (input.drop i) (by omega)
  refine ⟨buffer, i, _, buffer', hcopy, hloop, hcopy', hsize'.trans hsize, ?_⟩
  rw [hrestLength, Nat.zero_add, List.take_zero, List.nil_append, hrest, ← habsorb] at htake'
  rw [htake', habsorb]

/-- One more part of the message. -/
theorem Represents.update (h : Represents context message) (input : List UInt8)
    (hlength : input.length + 64 ≤ 4294967296) :
    ∃ context', opiemd5update context input = some context' ∧
      Represents context' (message ++ input) := by
  obtain ⟨hcount0, hcount1⟩ := count_add (n := input.length) (by omega) h.count0 h.count1
  rw [← List.length_append] at hcount0 hcount1
  unfold opiemd5update
  simp only [h.index]
  by_cases hlong : 64 - message.length % 64 ≤ input.length
  · obtain ⟨buffer, i, state, buffer', hcopy, hloop, hcopy', hsize, habsorb⟩ := h.fill hlength hlong
    rw [if_pos hlong, hcopy]
    simp only [Option.bind_eq_bind, Option.bind_some, hloop, hcopy']
    exact ⟨_, rfl, congrArg Prod.fst habsorb.symm, hsize, congrArg Prod.snd habsorb.symm, hcount0,
      hcount1⟩
  · obtain ⟨buffer, hcopy, hsize, habsorb⟩ := h.keep (Nat.not_le.mp hlong)
    rw [if_neg hlong, hcopy]
    exact ⟨_, rfl, congrArg Prod.fst habsorb.symm, hsize, congrArg Prod.snd habsorb.symm, hcount0,
      hcount1⟩

/-- The parts of a message one after the other. -/
theorem Represents.parts (parts : List (List UInt8)) (h : Represents context message)
    (hparts : ∀ part ∈ parts, part.length + 64 ≤ 4294967296) :
    ∃ context', parts.foldlM opiemd5update context = some context' ∧
      Represents context' (message ++ parts.flatten) := by
  induction parts generalizing context message with
  | nil => exact ⟨context, rfl, by rwa [List.flatten_nil, List.append_nil]⟩
  | cons part parts ih =>
      obtain ⟨hpart, hparts⟩ := List.forall_mem_cons.mp hparts
      obtain ⟨next, hupdate, hnext⟩ := h.update part hpart
      obtain ⟨context', hrun, hcontext'⟩ := ih hnext hparts
      refine ⟨context', ?_, by rwa [List.flatten_cons, ← List.append_assoc]⟩
      rw [List.foldlM_cons, hupdate]
      exact hrun

/-! ## The end of a message -/

/-- The bytes of a word by its value. -/
theorem wordBytes_eq (word : UInt32) : wordBytes word =
    [.ofNat word.toNat, .ofNat (word.toNat / 256), .ofNat (word.toNat / 65536),
      .ofNat (word.toNat / 16777216)] := by
  have hbyte : ∀ w : UInt32, (w &&& 0xff).toUInt8 = .ofNat w.toNat := by
    intro w
    have hmask : (0xff : UInt32).toNat = 2 ^ 8 - 1 := rfl
    apply UInt8.toNat_inj.mp
    rw [UInt32.toNat_toUInt8, UInt32.toNat_and, hmask, Nat.and_two_pow_sub_one_eq_mod,
      UInt8.toNat_ofNat', Nat.mod_mod]
  unfold wordBytes
  rw [hbyte, hbyte, hbyte, hbyte, UInt32.toNat_shiftRight, UInt32.toNat_shiftRight,
    UInt32.toNat_shiftRight]
  change [_, UInt8.ofNat (_ >>> 8), UInt8.ofNat (_ >>> 16), UInt8.ofNat (_ >>> 24)] = _
  rw [Nat.shiftRight_eq_div_pow, Nat.shiftRight_eq_div_pow, Nat.shiftRight_eq_div_pow]

theorem ofNat_congr {a b : ℕ} (h : a % 256 = b % 256) : UInt8.ofNat a = UInt8.ofNat b := by
  apply UInt8.toNat_inj.mp
  rw [UInt8.toNat_ofNat', UInt8.toNat_ofNat']
  exact h

theorem Represents.bits (h : Represents context message) :
    eEncode [context.count0, context.count1] = lengthBytes message.length := by
  have hlength : lengthBytes message.length = (List.range 8).map fun i ↦
      UInt8.ofNat (8 * message.length / 2 ^ (8 * i)) := by
    unfold lengthBytes
    simp only [Nat.shiftRight_eq_div_pow]
  change wordBytes context.count0 ++ (wordBytes context.count1 ++ []) = _
  rw [hlength, wordBytes_eq, wordBytes_eq, h.count0, h.count1]
  simp only [List.range, List.range.loop, List.map_cons, List.map_nil, List.cons_append,
    List.nil_append, List.append_nil, List.cons.injEq, and_true]
  refine ⟨?_, ?_, ?_, ?_, ?_, ?_, ?_, ?_⟩ <;> apply ofNat_congr <;> omega

/-- `opiemd5final` pads the message. -/
theorem Represents.final (h : Represents context message) :
    opiemd5final context = some (md5 message) := by
  have hlt : message.length % 64 < 64 := Nat.mod_lt _ (by omega)
  have hpadLen : (if message.length % 64 < 56 then 56 - message.length % 64
      else 120 - message.length % 64) = (119 - message.length % 64) % 64 + 1 := by
    split_ifs <;> omega
  have hpadding : padding.take ((119 - message.length % 64) % 64 + 1) =
      0x80 :: List.replicate ((119 - message.length % 64) % 64) 0 := by
    rw [padding, List.take_succ_cons, List.take_replicate, Nat.min_eq_left (by omega)]
  have hlengthBytes : (lengthBytes message.length).length = 8 := by
    rw [lengthBytes, List.length_map, List.length_range]
  obtain ⟨context₁, hupdate₁, hcontext₁⟩ :=
    h.update (0x80 :: List.replicate ((119 - message.length % 64) % 64) 0)
      (by rw [List.length_cons, List.length_replicate]; omega)
  obtain ⟨context₂, hupdate₂, hcontext₂⟩ :=
    hcontext₁.update (lengthBytes message.length) (by rw [hlengthBytes]; omega)
  unfold opiemd5final
  simp only [h.index, h.bits, hpadLen, hpadding, hupdate₁, hupdate₂, Option.bind_eq_bind,
    Option.bind_some]
  exact congrArg some (congrArg (fun state ↦ eEncode state.words) hcontext₂.state)

/-- The parts of a message and its end. -/
theorem Represents.digest (h : Represents context message) (parts : List (List UInt8))
    (hparts : ∀ part ∈ parts, part.length + 64 ≤ 4294967296) :
    (parts.foldlM opiemd5update context).bind opiemd5final =
      some (md5 (message ++ parts.flatten)) := by
  obtain ⟨context', hrun, hcontext'⟩ := h.parts parts hparts
  rw [hrun]
  exact hcontext'.final

/-- The digest of a message depends neither on how it was cut into parts nor on what a context held
in between: it is that of the padded text. -/
theorem digestOfParts_eq (parts : List (List UInt8))
    (hparts : ∀ part ∈ parts, part.length + 64 ≤ 4294967296) :
    digestOfParts parts = some (md5 parts.flatten) :=
  represents_init.digest parts hparts

/-- The text abc in two parts. -/
theorem digestOfParts_abc : digestOfParts [[97], [98, 99]] = some (md5 [97, 98, 99]) ∧
    md5 [97, 98, 99] = [0x90, 0x01, 0x50, 0x98, 0x3c, 0xd2, 0x4f, 0xb0,
      0xd6, 0x96, 0x3f, 0x7d, 0x28, 0xe1, 0x7f, 0x72] := by
  refine ⟨digestOfParts_eq [[97], [98, 99]] ?_, by decide +kernel⟩
  simp

end HavokMud.Digest
