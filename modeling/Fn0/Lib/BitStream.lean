/-
Bit streams: numbers as bits, most significant first, bytes as eight bits each, and signed numbers folded onto the
unsigned ones.
-/
import Mathlib
import Fn0.Lib.Bytes

namespace BitStream

/-- The low `count` bits of a number, most significant first. -/
def bitsOf : Nat → Nat → List Bool
  | 0, _ => []
  | count + 1, n => n.testBit count :: bitsOf count n

/-- The number a list of bits denotes, most significant first. -/
def numberOf (bits : List Bool) : Nat := bits.foldl (fun n bit => 2 * n + bit.toNat) 0

@[simp] theorem length_bitsOf (count n : Nat) : (bitsOf count n).length = count := by
  induction count with
  | zero => rfl
  | succ count ih => rw [bitsOf, List.length_cons, ih]

theorem foldl_bits (bits : List Bool) (n : Nat) :
    bits.foldl (fun n bit => 2 * n + bit.toNat) n = n * 2 ^ bits.length + numberOf bits := by
  induction bits generalizing n with
  | nil => simp [numberOf]
  | cons bit bits ih =>
    rw [numberOf, List.foldl_cons, List.foldl_cons, ih, ih, List.length_cons, Nat.pow_succ]
    ring

theorem numberOf_cons (bit : Bool) (bits : List Bool) :
    numberOf (bit :: bits) = bit.toNat * 2 ^ bits.length + numberOf bits := by
  rw [numberOf, List.foldl_cons, foldl_bits]
  simp

theorem numberOf_lt (bits : List Bool) : numberOf bits < 2 ^ bits.length := by
  induction bits with
  | nil => simp [numberOf]
  | cons bit bits ih =>
    rw [numberOf_cons, List.length_cons, Nat.pow_succ]
    cases bit <;> simp <;> omega

theorem numberOf_bitsOf (count n : Nat) : numberOf (bitsOf count n) = n % 2 ^ count := by
  induction count with
  | zero => simp [bitsOf, numberOf, Nat.mod_one]
  | succ count ih =>
    rw [bitsOf, numberOf_cons, ih, length_bitsOf, Nat.mod_pow_succ, Nat.toNat_testBit]
    ring

/-! ## Bytes -/

/-- The bits of a byte. -/
def byteBits (byte : UInt8) : List Bool := bitsOf 8 byte.toNat

/-- The bits of a byte string. -/
def bytesBits (bytes : Bytes) : List Bool := bytes.flatMap byteBits

@[simp] theorem bytesBits_append (front back : Bytes) : bytesBits (front ++ back) = bytesBits front ++ bytesBits back :=
  List.flatMap_append

theorem length_bytesBits (bytes : Bytes) : (bytesBits bytes).length = 8 * bytes.length := by
  induction bytes with
  | nil => rfl
  | cons byte bytes ih =>
    have hcons : bytesBits (byte :: bytes) = byteBits byte ++ bytesBits bytes := rfl
    rw [hcons, List.length_append, ih, byteBits, length_bitsOf, List.length_cons]
    omega

@[simp] theorem length_byteBits (byte : UInt8) : (byteBits byte).length = 8 := length_bitsOf 8 _

theorem getElem?_byteBits (byte : UInt8) {i : Nat} (h : i < 8) :
    (byteBits byte)[i]? = some (byte.toNat.testBit (7 - i)) := by
  interval_cases i <;> rfl

/-- Bit `i` of a byte string is in byte `i / 8`, from its high end. -/
theorem getElem?_bytesBits (bytes : Bytes) (i : Nat) :
    (bytesBits bytes)[i]? = bytes[i / 8]?.map fun byte => byte.toNat.testBit (7 - i % 8) := by
  induction bytes generalizing i with
  | nil => simp [bytesBits]
  | cons byte bytes ih =>
    have hcons : bytesBits (byte :: bytes) = byteBits byte ++ bytesBits bytes := rfl
    rw [hcons]
    by_cases hi : i < 8
    · rw [List.getElem?_append_left (by rwa [length_byteBits]), getElem?_byteBits byte hi, Nat.div_eq_of_lt hi,
        Nat.mod_eq_of_lt hi]
      rfl
    · rw [List.getElem?_append_right (by rw [length_byteBits]; omega), length_byteBits, ih]
      have hdiv : i / 8 = (i - 8) / 8 + 1 := by omega
      have hmod : (i - 8) % 8 = i % 8 := by omega
      rw [hdiv, hmod, List.getElem?_cons_succ]

/-- Setting a bit of a byte. -/
theorem byteBits_or (byte : UInt8) {i : Nat} (h : i < 8) :
    byteBits (byte ||| 1 <<< UInt8.ofNat i) = (byteBits byte).set (7 - i) true := by
  have hor : (byte ||| 1 <<< UInt8.ofNat i).toNat = byte.toNat ||| 2 ^ i := by
    rw [UInt8.toNat_or]
    congr 1
    interval_cases i <;> rfl
  refine List.ext_getElem? fun j => ?_
  by_cases hj : j < 8
  · rw [getElem?_byteBits _ hj, hor, Nat.testBit_or, Nat.testBit_two_pow, List.getElem?_set]
    split
    next heq =>
      subst heq
      have hi : i = 7 - (7 - i) := by omega
      rw [if_pos (by rw [length_byteBits]; exact hj), ← hi]
      simp
    next hne =>
      rw [getElem?_byteBits _ hj]
      have hi : i ≠ 7 - j := by omega
      simp [hi]
  · rw [List.getElem?_eq_none (by rw [length_byteBits]; omega),
      List.getElem?_eq_none (by rw [List.length_set, length_byteBits]; omega)]

/-! ## Folding the sign -/

/-- `((value << 1) ^ (value >> 63)) as u64` on two's complement words. -/
def zigzag (value : BitVec 64) : BitVec 64 := (value <<< 1) ^^^ value.sshiftRight 63

/-- `((value >> 1) as i64) ^ -((value & 1) as i64)`. -/
def unzigzag (value : BitVec 64) : BitVec 64 := (value >>> 1) ^^^ -(value &&& 1#64)

/-- A bit, all over a word. -/
def spread (bit : Bool) : BitVec 64 := if bit then BitVec.allOnes 64 else 0#64

theorem getElem_spread (bit : Bool) (i : Nat) (hi : i < 64) : (spread bit)[i] = bit := by
  cases bit
  · exact BitVec.getElem_zero hi
  · exact BitVec.getElem_allOnes i hi

theorem sshiftRight_last (value : BitVec 64) : value.sshiftRight 63 = spread value.msb := by
  ext i hi
  rw [BitVec.getElem_sshiftRight, getElem_spread]
  split
  · obtain rfl : i = 0 := by omega
    rw [BitVec.msb_eq_getLsbD_last]
    rfl
  · rfl

theorem neg_and_one (value : BitVec 64) : -(value &&& 1#64) = spread value[0] := by
  have hone : value &&& 1#64 = if value[0] then 1#64 else 0#64 := by
    ext i hi
    rcases Nat.eq_zero_or_pos i with rfl | hpos
    · cases h : value[0] <;> simp [h]
    · have hne : i ≠ 0 := by omega
      cases value[0] <;> simp [BitVec.getElem_one, hne]
  rw [hone, spread]
  split <;> rfl

theorem unzigzag_zigzag (value : BitVec 64) : unzigzag (zigzag value) = value := by
  have hlow : (zigzag value)[0] = value.msb := by
    simp [zigzag, sshiftRight_last, getElem_spread]
  rw [unzigzag, neg_and_one, hlow, zigzag, sshiftRight_last]
  ext i hi
  rw [BitVec.getElem_xor, getElem_spread, BitVec.getElem_ushiftRight]
  rcases Nat.lt_or_ge i 63 with h63 | h63
  · rw [BitVec.getLsbD_eq_getElem (by omega), BitVec.getElem_xor, getElem_spread, BitVec.getElem_shiftLeft]
    simp
  · obtain rfl : i = 63 := by omega
    rw [BitVec.getLsbD_of_ge _ _ (by omega), BitVec.msb_eq_getLsbD_last]
    simp

end BitStream
