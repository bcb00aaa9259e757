/-
Byte strings under bytewise lexicographic comparison, as `Vec<u8>` and `&[u8]` are ordered.
-/
import Mathlib

instance instLinearOrderUInt8 : LinearOrder UInt8 where
  le_refl := UInt8.le_refl
  le_trans _ _ _ := UInt8.le_trans
  le_antisymm _ _ := UInt8.le_antisymm
  le_total := UInt8.le_total
  lt_iff_le_not_ge a b := by
    simp only [UInt8.lt_iff_toNat_lt, UInt8.le_iff_toNat_le]
    omega
  toDecidableLE := inferInstance
  toDecidableLT := inferInstance
  toDecidableEq := inferInstance

/-- A byte string. -/
abbrev Bytes : Type := List UInt8

namespace Bytes

theorem pos_of_ne_zero {b : UInt8} (h : b ≠ 0) : 0 < b := by
  have : b.toNat ≠ 0 := fun h0 => h (UInt8.toNat_inj.mp (by simpa using h0))
  rw [UInt8.lt_iff_toNat_lt]
  simpa using Nat.pos_of_ne_zero this

/-- `to_le_bytes`: the low `width` bytes of a number, least significant first. -/
def ofNatLE : Nat → Nat → Bytes
  | 0, _ => []
  | width + 1, n => UInt8.ofNat n :: ofNatLE width (n / 256)

/-- `from_le_bytes`. -/
def toNatLE : Bytes → Nat
  | [] => 0
  | b :: rest => b.toNat + 256 * toNatLE rest

@[simp] theorem length_ofNatLE (width n : Nat) : (ofNatLE width n).length = width := by
  induction width generalizing n with
  | zero => rfl
  | succ width ih => simp [ofNatLE, ih]

end Bytes
