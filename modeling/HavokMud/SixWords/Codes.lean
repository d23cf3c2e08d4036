import HavokMud.Sequence.Blocks
import HavokMud.SixWords.Dictionary

/-!
# Numbers as six words

`opiebtoe` writes 64 bits as six words of eleven bits each; the two bits that are left over are a
checksum.  `opieetob` reads six words of any text and checks the sum.  Both pass buffers of nine
bytes to `extract`, which reads up to two bytes further.
-/

namespace HavokMud.SixWords

open Sequence

/-- `extract`. -/
def extract (s : ℕ → UInt8) (start length : ℕ) : UInt32 :=
  let x := window s (start / 8)
  let x := x >>> UInt32.ofNat (24 - (length + start % 8))
  x &&& (0xffff >>> UInt32.ofNat (16 - length))

/-- `s[i] |= c`. -/
def orByte (s : ℕ → UInt8) (i : ℕ) (c : UInt8) : ℕ → UInt8 :=
  Function.update s i (s i ||| c)

/-- `insert`. -/
def insert (s : ℕ → UInt8) (x : UInt32) (start length : ℕ) : ℕ → UInt8 :=
  let shift := (8 - (start + length) % 8) % 8
  let y := x <<< UInt32.ofNat shift
  let cl := ((y >>> 16) &&& 0xff).toUInt8
  let cc := ((y >>> 8) &&& 0xff).toUInt8
  let cr := (y &&& 0xff).toUInt8
  let i := start / 8
  if 16 < shift + length then orByte (orByte (orByte s i cl) (i + 1) cc) (i + 2) cr
  else if 8 < shift + length then orByte (orByte s i cc) (i + 1) cr
  else orByte s i cr

/-- The sum of the first 32 pairs of bits. -/
def pairSum (s : ℕ → UInt8) : ℕ :=
  ((List.range 32).map fun i ↦ (extract s (2 * i) 2).toNat).sum

/-- The nine bytes `cp`, the last of which has the checksum, and what lies behind them. -/
def summed (stack c : ℕ → UInt8) : ℕ → UInt8 :=
  let cp := fun i ↦ if i < 8 then c i else stack i
  Function.update cp 8 (.ofNat (pairSum cp <<< 6))

/-- `opiebtoe`.  The stack behind `cp` is whatever it is. -/
def opiebtoe (stack c : ℕ → UInt8) : List UInt8 :=
  let word := fun start ↦ (wp (extract (summed stack c) start 11).toNat).take 4
  word 0 ++ [32] ++ word 11 ++ [32] ++ word 22 ++ [32] ++ word 33 ++ [32] ++ word 44 ++ [32] ++
    word 55

/-! ## Fields -/

variable {s t : ℕ → UInt8} {start length : ℕ} {x : UInt32}

/-- A field has the bits that stand in it. -/
theorem testBit_extract (hlength : length + start % 8 ≤ 24) (hlength' : length ≤ 16) (j : ℕ) :
    (extract s start length).toNat.testBit j =
      (decide (j < length) && bitAt s (start + (length - 1 - j))) := by
  have hshift : (UInt32.ofNat (24 - (length + start % 8))).toNat % 32 =
      24 - (length + start % 8) := by
    rw [UInt32.toNat_ofNat_of_lt' (by rw [UInt32.size]; omega), Nat.mod_eq_of_lt (by omega)]
  have hmask : ((0xffff : UInt32) >>> UInt32.ofNat (16 - length)).toNat = 65535 >>> (16 - length) := by
    rw [UInt32.toNat_shiftRight, UInt32.toNat_ofNat_of_lt' (by rw [UInt32.size]; omega), Nat.mod_eq_of_lt (by omega)]
    rfl
  have hones : (65535 >>> (16 - length)).testBit j = decide (j < length) := by
    have hall : (65535 : ℕ) = 2 ^ 16 - 1 := rfl
    rw [Nat.testBit_shiftRight, hall, Nat.testBit_two_pow_sub_one]
    exact decide_eq_decide.mpr (by omega)
  unfold extract
  simp only [UInt32.toNat_and, Nat.testBit_and, UInt32.toNat_shiftRight, hshift, hmask, hones,
    Nat.testBit_shiftRight, testBit_window]
  by_cases hj : j < length
  · have hplace : 8 * (start / 8) + (23 - (24 - (length + start % 8) + j)) =
        start + (length - 1 - j) := by omega
    have hin : 24 - (length + start % 8) + j < 24 := by omega
    rw [hplace, decide_eq_true hin, decide_eq_true hj, Bool.and_true]
  · rw [decide_eq_false hj, Bool.and_false, Bool.false_and]

/-- Only the bits of the field matter. -/
theorem extract_congr (hlength : length + start % 8 ≤ 24) (hlength' : length ≤ 16)
    (h : ∀ p, start ≤ p → p < start + length → bitAt s p = bitAt t p) :
    extract s start length = extract t start length := by
  apply UInt32.toNat_inj.mp
  apply Nat.eq_of_testBit_eq
  intro j
  rw [testBit_extract hlength hlength', testBit_extract hlength hlength']
  by_cases hj : j < length
  · rw [h _ (by omega) (by omega)]
  · rw [decide_eq_false hj, Bool.false_and, Bool.false_and]

theorem extract_lt (hlength : length + start % 8 ≤ 24) (hlength' : length ≤ 16) :
    (extract s start length).toNat < 2 ^ length := by
  apply Nat.lt_pow_two_of_testBit
  intro j hj
  rw [testBit_extract hlength hlength', decide_eq_false (Nat.not_lt.mpr hj), Bool.false_and]

theorem bitAt_orByte (s : ℕ → UInt8) (i : ℕ) (c : UInt8) (p : ℕ) :
    bitAt (orByte s i c) p =
      (bitAt s p || (decide (p / 8 = i) && c.toNat.testBit (7 - p % 8))) := by
  unfold bitAt orByte
  by_cases hbyte : p / 8 = i
  · rw [hbyte, Function.update_self, UInt8.toNat_or, Nat.testBit_or, decide_eq_true rfl,
      Bool.true_and]
  · rw [Function.update_of_ne hbyte, decide_eq_false hbyte, Bool.false_and, Bool.or_false]

/-- The bits of the lowest byte of a word. -/
theorem testBit_lowByte (y : UInt32) {j : ℕ} (hj : j < 8) :
    (y &&& 0xff).toUInt8.toNat.testBit j = y.toNat.testBit j := by
  have hmask : (0xff : UInt32).toNat = 2 ^ 8 - 1 := rfl
  rw [UInt32.toNat_toUInt8, UInt32.toNat_and, hmask, Nat.and_two_pow_sub_one_eq_mod, Nat.mod_mod,
    Nat.testBit_mod_two_pow, decide_eq_true hj, Bool.true_and]

/-- What is put into a field is added to the bits that stand in it. -/
theorem bitAt_insert (hx : x.toNat < 2 ^ length) (hpos : 0 < length) (hlength : length ≤ 17)
    (p : ℕ) :
    bitAt (insert s x start length) p = (bitAt s p ||
      (decide (p < start + length) && x.toNat.testBit (start + length - 1 - p))) := by
  have hshift : (8 - (start + length) % 8) % 8 < 8 := Nat.mod_lt _ (by omega)
  have hend : (start + length + (8 - (start + length) % 8) % 8) % 8 = 0 := by omega
  have hzero : ∀ j, length ≤ j → x.toNat.testBit j = false := fun j hj ↦
    Nat.testBit_lt_two_pow (Nat.lt_of_lt_of_le hx (Nat.pow_le_pow_right (by omega) hj))
  generalize hdef : (8 - (start + length) % 8) % 8 = shift at hshift hend
  have hy : ∀ j, j < 24 → (x <<< UInt32.ofNat shift).toNat.testBit j =
      (decide (shift ≤ j) && x.toNat.testBit (j - shift)) := by
    intro j hj
    rw [UInt32.toNat_shiftLeft, UInt32.toNat_ofNat_of_lt' (by rw [UInt32.size]; omega),
      Nat.mod_eq_of_lt (show shift < 32 by omega), Nat.testBit_mod_two_pow,
      Nat.testBit_shiftLeft, decide_eq_true (show j < 32 by omega), Bool.true_and]
  have hin : ∀ j, j < 24 → j + p + 1 = start + length + shift →
      (x <<< UInt32.ofNat shift).toNat.testBit j =
        (decide (p < start + length) && x.toNat.testBit (start + length - 1 - p)) := by
    intro j hj hplace
    rw [hy j hj, show j - shift = start + length - 1 - p by omega]
    exact congrArg (· && _) (decide_eq_decide.mpr (by omega))
  have hout : p / 8 < start / 8 ∨ start + length ≤ p →
      (decide (p < start + length) && x.toNat.testBit (start + length - 1 - p)) = false := by
    rintro (hbefore | hbehind)
    · rw [hzero _ (by omega), Bool.and_false]
    · rw [decide_eq_false (Nat.not_lt.mpr hbehind), Bool.false_and]
  unfold insert
  simp only [hdef]
  split_ifs with hthree htwo
  · have hfirst := hin (16 + (7 - p % 8)) (by omega)
    have hsecond := hin (8 + (7 - p % 8)) (by omega)
    have hthird := hin (7 - p % 8) (by omega)
    rw [bitAt_orByte, bitAt_orByte, bitAt_orByte, testBit_lowByte _ (by omega),
      testBit_lowByte _ (by omega), testBit_lowByte _ (by omega), UInt32.toNat_shiftRight,
      UInt32.toNat_shiftRight, Nat.testBit_shiftRight, Nat.testBit_shiftRight]
    change (((_ || (_ && Nat.testBit _ (16 + _))) || (_ && Nat.testBit _ (8 + _))) || _) = _
    grind
  · have hsecond := hin (8 + (7 - p % 8)) (by omega)
    have hthird := hin (7 - p % 8) (by omega)
    rw [bitAt_orByte, bitAt_orByte, testBit_lowByte _ (by omega), testBit_lowByte _ (by omega),
      UInt32.toNat_shiftRight, Nat.testBit_shiftRight]
    change ((_ || (_ && Nat.testBit _ (8 + _))) || _) = _
    grind
  · have hthird := hin (7 - p % 8) (by omega)
    rw [bitAt_orByte, testBit_lowByte _ (by omega)]
    grind

/-! ## The checksum -/

theorem pairSum_congr (h : ∀ p < 64, bitAt s p = bitAt t p) : pairSum s = pairSum t := by
  unfold pairSum
  congr 1
  apply List.map_congr_left
  intro i hi
  have hi := List.mem_range.mp hi
  rw [extract_congr (t := t) (by omega) (by omega) fun p _ hp ↦ h p (by omega)]

variable {stack c : ℕ → UInt8}

theorem bitAt_summed {p : ℕ} (hp : p < 64) : bitAt (summed stack c) p = bitAt c p := by
  apply bitAt_congr
  unfold summed
  rw [Function.update_of_ne (by omega), if_pos (by omega)]

/-- The last two bits are the sum of the pairs in front of them. -/
theorem extract_summed : (extract (summed stack c) 64 2).toNat = pairSum c % 4 := by
  have hcp : pairSum (fun i ↦ if i < 8 then c i else stack i) = pairSum c :=
    pairSum_congr fun p hp ↦ bitAt_congr (if_pos (by omega))
  apply Nat.eq_of_testBit_eq
  intro j
  have hmod : pairSum c % 4 = pairSum c % 2 ^ 2 := rfl
  rw [testBit_extract (by omega) (by omega), hmod, Nat.testBit_mod_two_pow]
  by_cases hj : j < 2
  · have hbyte : (64 + (2 - 1 - j)) / 8 = 8 := by omega
    have hplace : 7 - (64 + (2 - 1 - j)) % 8 = 6 + j := by omega
    rw [decide_eq_true hj, Bool.true_and, Bool.true_and, bitAt, hbyte, hplace, summed,
      Function.update_self, hcp, UInt8.toNat_ofNat', Nat.testBit_mod_two_pow,
      Nat.testBit_shiftLeft, decide_eq_true (show 6 + j < 8 by omega),
      decide_eq_true (show 6 ≤ 6 + j by omega), Bool.true_and, Bool.true_and,
      Nat.add_sub_cancel_left]
  · rw [decide_eq_false hj, Bool.false_and, Bool.false_and]

/-! ## Packed numbers -/

/-- The numbers one after the other, eleven bits each. -/
def pack (b : ℕ → UInt8) (p : ℕ) : List ℕ → ℕ → UInt8
  | [] => b
  | v :: vs => pack (insert b (.ofNat v) p 11) (p + 11) vs

/-- A bit of numbers that stand one after the other. -/
def packedBit (vs : List ℕ) (q : ℕ) : Bool :=
  (vs.getD (q / 11) 0).testBit (10 - q % 11)

theorem bitAt_pack (vs : List ℕ) (hvs : ∀ v ∈ vs, v < 2048) (b : ℕ → UInt8) (p q : ℕ) :
    bitAt (pack b p vs) q = (bitAt b q || (decide (p ≤ q) && packedBit vs (q - p))) := by
  induction vs generalizing b p with
  | nil => simp [pack, packedBit]
  | cons v vs ih =>
      obtain ⟨hv, hvs⟩ := List.forall_mem_cons.mp hvs
      have hofNat : (UInt32.ofNat v).toNat = v :=
        UInt32.toNat_ofNat_of_lt' (by rw [UInt32.size]; omega)
      rw [pack, ih hvs, bitAt_insert (by rw [hofNat]; exact hv) (by omega) (by omega), hofNat,
        Bool.or_assoc]
      congr 1
      unfold packedBit
      rcases (show q < p ∨ (p ≤ q ∧ q < p + 11) ∨ p + 11 ≤ q by omega) with hq | ⟨hq, hq'⟩ | hq
      · have hlarge : 2 ^ 11 ≤ 2 ^ (p + 11 - 1 - q) :=
          Nat.pow_le_pow_right (by omega) (by omega)
        have hzero : v.testBit (p + 11 - 1 - q) = false :=
          Nat.testBit_lt_two_pow (Nat.lt_of_lt_of_le hv hlarge)
        rw [hzero, decide_eq_false (show ¬ p + 11 ≤ q by omega),
          decide_eq_false (show ¬ p ≤ q by omega)]
        simp
      · have hfirst : (q - p) / 11 = 0 := by omega
        have hplace : p + 11 - 1 - q = 10 - (q - p) % 11 := by omega
        rw [hfirst, hplace, decide_eq_true hq', decide_eq_false (show ¬ p + 11 ≤ q by omega),
          decide_eq_true hq]
        simp
      · have hnext : (q - p) / 11 = (q - (p + 11)) / 11 + 1 := by omega
        have hplace : (q - p) % 11 = (q - (p + 11)) % 11 := by omega
        rw [hnext, hplace, decide_eq_false (show ¬ q < p + 11 by omega), decide_eq_true hq,
          decide_eq_true (show p ≤ q by omega)]
        simp

/-! ## The numbers of a code -/

/-- The six numbers that stand for eight bytes. -/
def numbers (c : ℕ → UInt8) : List ℕ :=
  (List.range 6).map fun k ↦ (extract (summed (fun _ ↦ 0) c) (11 * k) 11).toNat

theorem numbers_lt {v : ℕ} (hv : v ∈ numbers c) : v < 2048 := by
  obtain ⟨k, -, rfl⟩ := List.mem_map.mp hv
  exact extract_lt (by omega) (by omega)

theorem length_numbers : (numbers c).length = 6 := by
  rw [numbers, List.length_map, List.length_range]

/-- The fields do not show what lies behind the nine bytes. -/
theorem extract_stack {start : ℕ} (hstart : start ≤ 55) :
    extract (summed stack c) start 11 = extract (summed (fun _ ↦ 0) c) start 11 := by
  apply extract_congr (by omega) (by omega)
  intro p _ hp
  apply bitAt_congr
  have hsum : pairSum (fun i ↦ if i < 8 then c i else stack i) =
      pairSum fun i ↦ if i < 8 then c i else 0 :=
    pairSum_congr fun p hp ↦ bitAt_congr (by rw [if_pos (by omega), if_pos (by omega)])
  unfold summed
  by_cases hbyte : p / 8 = 8
  · rw [hbyte, Function.update_self, Function.update_self, hsum]
  · rw [Function.update_of_ne hbyte, Function.update_of_ne hbyte, if_pos (by omega),
      if_pos (by omega)]

theorem numbers_congr {c' : ℕ → UInt8} (h : ∀ i < 8, c i = c' i) : numbers c = numbers c' := by
  have hbytes : (fun i ↦ if i < 8 then c i else 0) = fun i ↦ if i < 8 then c' i else 0 := by
    funext i
    split_ifs with hi
    · exact h i hi
    · rfl
  unfold numbers summed
  rw [hbytes]

theorem getD_numbers {k : ℕ} (hk : k < 6) :
    (numbers c).getD k 0 = (extract (summed (fun _ ↦ 0) c) (11 * k) 11).toNat := by
  rw [numbers, List.getD_eq_getElem?_getD, List.getElem?_map, List.getElem?_range hk]
  rfl

theorem packedBit_numbers {q : ℕ} (hq : q < 66) :
    packedBit (numbers c) q = bitAt (summed (fun _ ↦ 0) c) q := by
  have hplace : 11 * (q / 11) + (11 - 1 - (10 - q % 11)) = q := by omega
  rw [packedBit, getD_numbers (by omega), testBit_extract (by omega) (by omega), hplace,
    decide_eq_true (show 10 - q % 11 < 11 by omega), Bool.true_and]

/-- The bits of `b` after six numbers were inserted. -/
theorem bitAt_packed {b : ℕ → UInt8} (hb : ∀ i < 9, b i = 0) {vs : List ℕ}
    (hvs : ∀ v ∈ vs, v < 2048) {q : ℕ} (hq : q < 72) : bitAt (pack b 0 vs) q = packedBit vs q := by
  have hzero : bitAt b q = false := by
    rw [bitAt, hb _ (by omega)]
    exact Nat.zero_testBit _
  rw [bitAt_pack vs hvs, hzero, decide_eq_true (Nat.zero_le q), Nat.sub_zero, Bool.true_and,
    Bool.false_or]

section Packed

variable {b : ℕ → UInt8} (hb : ∀ i < 9, b i = 0)
include hb

/-- The numbers of a code give back its bytes and pass the check. -/
theorem pack_numbers (c : ℕ → UInt8) : (∀ i < 8, pack b 0 (numbers c) i = c i) ∧
    pairSum (pack b 0 (numbers c)) % 4 = (extract (pack b 0 (numbers c)) 64 2).toNat := by
  have hbits : ∀ q < 66, bitAt (pack b 0 (numbers c)) q = bitAt (summed (fun _ ↦ 0) c) q := by
    intro q hq
    rw [bitAt_packed hb (fun _ ↦ numbers_lt) (by omega), packedBit_numbers hq]
  constructor
  · intro i hi
    apply byte_ext
    intro q _ hq
    rw [hbits q (by omega), bitAt_summed (by omega)]
  · have hsum : pairSum (pack b 0 (numbers c)) = pairSum c :=
      pairSum_congr fun q hq ↦ (hbits q (by omega)).trans (bitAt_summed hq)
    rw [hsum, extract_congr (by omega) (by omega) fun q _ hq ↦ hbits q (by omega),
      extract_summed]

/-- Numbers that pass the check are those of the bytes that they are packed into. -/
theorem eq_numbers_of_check {vs : List ℕ} (hlength : vs.length = 6) (hvs : ∀ v ∈ vs, v < 2048)
    (hcheck : pairSum (pack b 0 vs) % 4 = (extract (pack b 0 vs) 64 2).toNat) :
    vs = numbers (pack b 0 vs) := by
  have hbits : ∀ q < 66, bitAt (summed (fun _ ↦ 0) (pack b 0 vs)) q = bitAt (pack b 0 vs) q := by
    intro q hq
    by_cases hq' : q < 64
    · exact bitAt_summed hq'
    · have hfield := @extract_summed (fun _ ↦ 0) (pack b 0 vs)
      rw [hcheck] at hfield
      have hbit := congrArg (fun n ↦ n.testBit (65 - q)) hfield
      rwa [testBit_extract (by omega) (by omega), testBit_extract (by omega) (by omega),
        decide_eq_true (show 65 - q < 2 by omega), Bool.true_and, Bool.true_and,
        show 64 + (2 - 1 - (65 - q)) = q by omega] at hbit
  apply List.ext_getElem (hlength.trans length_numbers.symm)
  intro k hk _
  apply Nat.eq_of_testBit_eq
  intro j
  by_cases hj : j < 11
  · have hq : 11 * k + (10 - j) < 66 := by omega
    have hpacked := packedBit_numbers (c := pack b 0 vs) hq
    rw [hbits _ hq, bitAt_packed hb hvs (by omega)] at hpacked
    unfold packedBit at hpacked
    have hindex : (11 * k + (10 - j)) / 11 = k := by omega
    have hplace : 10 - (11 * k + (10 - j)) % 11 = j := by omega
    rw [hindex, hplace, List.getD_eq_getElem _ _ hk,
      List.getD_eq_getElem _ _ (by rw [length_numbers]; omega)] at hpacked
    exact hpacked.symm
  · have hlarge : 2 ^ 11 ≤ 2 ^ j := Nat.pow_le_pow_right (by omega) (Nat.not_lt.mp hj)
    rw [Nat.testBit_lt_two_pow (Nat.lt_of_lt_of_le (hvs _ (List.getElem_mem _)) hlarge),
      Nat.testBit_lt_two_pow (Nat.lt_of_lt_of_le (numbers_lt (List.getElem_mem _)) hlarge)]

end Packed

end HavokMud.SixWords
