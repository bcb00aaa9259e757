/-
Bloom filters (signy/src/bloom.rs): `k` positions of a bit array for every item, inserted, looked up, encoded and
decoded. The pair of hashes is a parameter of the filter's operations; `hashPair` is the one the code uses.
-/
import Fn0.Lib.Codec

namespace Signy

/-! ## Hashing -/

def fnv1a64 (data : Bytes) (seed : UInt64) : UInt64 :=
  data.foldl (fun h b => (h ^^^ b.toUInt64) * 0x100000001b3) seed

def hashPair (data : Bytes) : UInt64 × UInt64 := (fnv1a64 data 0xcbf29ce484222325, fnv1a64 data 0x517cc1b727220a95)

def doubleHash (h : UInt64 × UInt64) (i m : Nat) : Nat := (h.1 + h.2 * UInt64.ofNat i).toNat % m

/-! ## Bits -/

/-- `bits[idx / 8] |= 1 << (idx % 8)`. -/
def setBit (bits : Bytes) (idx : Nat) : Bytes := bits.modify (idx / 8) (· ||| 1 <<< UInt8.ofNat (idx % 8))

/-- `bits[idx / 8] & (1 << (idx % 8)) != 0`. -/
def bitSet (bits : Bytes) (idx : Nat) : Bool := (bits.getD (idx / 8) 0 &&& 1 <<< UInt8.ofNat (idx % 8)) != 0

theorem length_setBit (bits : Bytes) (idx : Nat) : (setBit bits idx).length = bits.length := List.length_modify _ _ _

theorem toNat_one_shift {i : Nat} (h : i < 8) : (1 <<< UInt8.ofNat i : UInt8).toNat = 2 ^ i := by
  interval_cases i <;> rfl

theorem bitSet_eq_testBit (bits : Bytes) (idx : Nat) :
    bitSet bits idx = (bits.getD (idx / 8) 0).toNat.testBit (idx % 8) := by
  have hlt : idx % 8 < 8 := Nat.mod_lt _ (by decide)
  have hzero (n : Nat) : n &&& 2 ^ (idx % 8) = 0 ↔ n.testBit (idx % 8) = false := by
    rw [Nat.and_two_pow]
    cases n.testBit (idx % 8) <;> simp
  rw [bitSet, Bool.eq_iff_iff, bne_iff_ne, ne_eq, ← UInt8.toNat_inj, UInt8.toNat_and, toNat_one_shift hlt]
  exact (not_congr (hzero _)).trans (Bool.not_eq_false _).to_iff

theorem bitSet_setBit {bits : Bytes} {i : Nat} (hi : i < 8 * bits.length) (j : Nat) :
    bitSet (setBit bits i) j = (decide (i = j) || bitSet bits j) := by
  have hlt : i % 8 < 8 := Nat.mod_lt _ (by decide)
  rw [bitSet_eq_testBit, bitSet_eq_testBit, setBit, List.getD_eq_getElem?_getD, List.getD_eq_getElem?_getD,
    List.getElem?_modify]
  by_cases hbyte : i / 8 = j / 8
  · rw [← hbyte, List.getElem?_eq_getElem (by omega)]
    simp only [if_true, Option.map_eq_map, Option.map_some, Option.getD_some, UInt8.toNat_or, toNat_one_shift hlt,
      Nat.testBit_or, Nat.testBit_two_pow]
    have hsame : i = j ↔ i % 8 = j % 8 := by omega
    rw [Bool.or_comm, decide_eq_decide.mpr hsame.symm]
  · have hne : i ≠ j := fun h => hbyte (by rw [h])
    simp [hbyte, hne]

/-! ## Filters -/

/-- A filter; its bits are whole bytes, at least one. -/
structure BloomFilter where
  bits : Bytes
  numBits : Nat
  k : Nat
  numBits_pos : 0 < numBits
  length_bits : 8 * bits.length = numBits
  k_lt : k < 2 ^ 32

namespace BloomFilter

section Hash

variable (hash : Bytes → UInt64 × UInt64)

/-- The bits of an item. -/
def positions (numBits k : Nat) (data : Bytes) : List Nat :=
  (List.range k).map fun i => doubleHash (hash data) i numBits

theorem length_foldl_setBit (idxs : List Nat) (bits : Bytes) : (idxs.foldl setBit bits).length = bits.length := by
  induction idxs generalizing bits with
  | nil => rfl
  | cons idx idxs ih => rw [List.foldl_cons, ih, length_setBit]

def insert (b : BloomFilter) (data : Bytes) : BloomFilter :=
  { b with
    bits := (positions hash b.numBits b.k data).foldl setBit b.bits
    length_bits := by rw [length_foldl_setBit, b.length_bits] }

def contains (b : BloomFilter) (data : Bytes) : Bool := (positions hash b.numBits b.k data).all (bitSet b.bits)

variable {hash}

theorem mem_positions_lt {numBits k : Nat} (hpos : 0 < numBits) {data : Bytes} {idx : Nat}
    (h : idx ∈ positions hash numBits k data) : idx < numBits := by
  obtain ⟨i, -, rfl⟩ := List.mem_map.mp h
  exact Nat.mod_lt _ hpos

theorem bitSet_foldl_setBit {idxs : List Nat} {bits : Bytes} (h : ∀ idx ∈ idxs, idx < 8 * bits.length) (j : Nat) :
    bitSet (idxs.foldl setBit bits) j = true ↔ j ∈ idxs ∨ bitSet bits j = true := by
  induction idxs generalizing bits with
  | nil => simp
  | cons idx idxs ih =>
    obtain ⟨hidx, hidxs⟩ := List.forall_mem_cons.mp h
    rw [List.foldl_cons, ih (by rwa [length_setBit]), bitSet_setBit hidx]
    simp only [Bool.or_eq_true, decide_eq_true_eq, List.mem_cons]
    tauto

/-- The bits of a filter after an insert. -/
theorem bitSet_insert (b : BloomFilter) (data : Bytes) (j : Nat) :
    bitSet (b.insert hash data).bits j = true ↔ j ∈ positions hash b.numBits b.k data ∨ bitSet b.bits j = true :=
  bitSet_foldl_setBit (fun _ hidx => b.length_bits ▸ mem_positions_lt b.numBits_pos hidx) j

/-- The bits of a filter after some inserts. -/
theorem bitSet_foldl_insert (items : List Bytes) (b : BloomFilter) (j : Nat) :
    bitSet (items.foldl (insert hash) b).bits j = true ↔
      (∃ data ∈ items, j ∈ positions hash b.numBits b.k data) ∨ bitSet b.bits j = true := by
  induction items generalizing b with
  | nil => simp
  | cons data items ih =>
    rw [List.foldl_cons, ih, bitSet_insert]
    simp only [List.mem_cons, exists_eq_or_imp]
    exact or_assoc.symm.trans (or_congr_left or_comm)

theorem size_foldl_insert (items : List Bytes) (b : BloomFilter) :
    (items.foldl (insert hash) b).numBits = b.numBits ∧ (items.foldl (insert hash) b).k = b.k := by
  induction items generalizing b with
  | nil => exact ⟨rfl, rfl⟩
  | cons data items ih => exact ih (b.insert hash data)

/-- What a filter with some items inserted answers: whether the bits of those items cover the bits asked for. -/
theorem contains_foldl_insert {items : List Bytes} {b : BloomFilter} (hempty : ∀ j, bitSet b.bits j = false)
    (data : Bytes) : (items.foldl (insert hash) b).contains hash data = true ↔
      ∀ j ∈ positions hash b.numBits b.k data, ∃ item ∈ items, j ∈ positions hash b.numBits b.k item := by
  obtain ⟨hbits, hk⟩ := @size_foldl_insert hash items b
  rw [contains, hbits, hk, List.all_eq_true]
  refine forall₂_congr fun j _ => ?_
  rw [bitSet_foldl_insert, hempty j]
  simp

/-- What was inserted is found. -/
theorem contains_of_mem {items : List Bytes} {b : BloomFilter} {data : Bytes} (h : data ∈ items) :
    (items.foldl (insert hash) b).contains hash data = true := by
  obtain ⟨hbits, hk⟩ := @size_foldl_insert hash items b
  rw [contains, hbits, hk, List.all_eq_true]
  exact fun j hj => (bitSet_foldl_insert items b j).mpr (.inl ⟨data, h, hj⟩)

end Hash

/-- An empty filter. -/
def new (numBits k : Nat) (hpos : 0 < numBits) (hbytes : numBits % 8 = 0) (hk : k < 2 ^ 32) : BloomFilter where
  bits := List.replicate (numBits / 8) 0
  numBits := numBits
  k := k
  numBits_pos := hpos
  length_bits := by rw [List.length_replicate]; omega
  k_lt := hk

theorem bitSet_new {numBits k : Nat} {hpos : 0 < numBits} {hbytes : numBits % 8 = 0} {hk : k < 2 ^ 32} (j : Nat) :
    bitSet (new numBits k hpos hbytes hk).bits j = false := by
  rw [bitSet_eq_testBit, new, List.getD_eq_getElem?_getD, List.getElem?_replicate]
  split <;> exact Nat.zero_testBit _

/-! ## The stored form -/

def magic : Bytes := [0x42, 0x4C, 0x4D, 0x31]

def encode (b : BloomFilter) : Bytes := magic ++ Bytes.ofNatLE 4 b.numBits ++ Bytes.ofNatLE 4 b.k ++ b.bits

theorem toNatLE_take_lt (bytes : Bytes) : Bytes.toNatLE (bytes.take 4) < 2 ^ 32 := by
  have hlt := Bytes.toNatLE_lt (bytes.take 4)
  have hle : 256 ^ (bytes.take 4).length ≤ 256 ^ 4 := Nat.pow_le_pow_right (by decide) (List.length_take_le 4 bytes)
  omega

def decode (buf : Bytes) : Except String BloomFilter :=
  if buf.length < 12 then .error "bloom buffer too short"
  else if buf.take 4 ≠ magic then .error "bloom magic mismatch"
  else
    let numBits := Bytes.toNatLE ((buf.drop 4).take 4)
    if hnum : numBits = 0 ∨ numBits % 8 ≠ 0 then .error s!"invalid bloom num_bits {numBits}"
    else if hlength : buf.length ≠ 12 + numBits / 8 then
      .error s!"bloom length mismatch: expected {12 + numBits / 8} got {buf.length}"
    else .ok
      { bits := buf.drop 12
        numBits := numBits
        k := Bytes.toNatLE ((buf.drop 8).take 4)
        numBits_pos := by omega
        length_bits := by rw [List.length_drop]; omega
        k_lt := toNatLE_take_lt _ }

/-- A stored filter is the filter. -/
theorem decode_encode (b : BloomFilter) (h : b.numBits < 2 ^ 32) : decode b.encode = .ok b := by
  have hbits := b.length_bits
  have hpos := b.numBits_pos
  have hform : b.encode = magic ++ (Bytes.ofNatLE 4 b.numBits ++ (Bytes.ofNatLE 4 b.k ++ b.bits)) := by
    simp only [encode, List.append_assoc]
  have hmagic : b.encode.take 4 = magic := by rw [hform, List.take_left' (by rfl : magic.length = 4)]
  have hfirst : b.encode.drop 4 = Bytes.ofNatLE 4 b.numBits ++ (Bytes.ofNatLE 4 b.k ++ b.bits) := by
    rw [hform, List.drop_left' (by rfl : magic.length = 4)]
  have hsecond : b.encode.drop 8 = Bytes.ofNatLE 4 b.k ++ b.bits := by
    rw [← List.drop_drop (i := 4) (j := 4), hfirst, List.drop_left' (Bytes.length_ofNatLE 4 _)]
  have hrest : b.encode.drop 12 = b.bits := by
    rw [← List.drop_drop (i := 4) (j := 8), hsecond, List.drop_left' (Bytes.length_ofNatLE 4 _)]
  have hnum : Bytes.toNatLE ((b.encode.drop 4).take 4) = b.numBits := by
    rw [hfirst, List.take_left' (Bytes.length_ofNatLE 4 _), Bytes.toNatLE_ofNatLE h]
  have hk : Bytes.toNatLE ((b.encode.drop 8).take 4) = b.k := by
    rw [hsecond, List.take_left' (Bytes.length_ofNatLE 4 _), Bytes.toNatLE_ofNatLE b.k_lt]
  have hlength : b.encode.length = 12 + b.numBits / 8 := by
    simp [encode, magic]
    omega
  rw [decode, if_neg (by omega), if_neg (not_not.mpr hmagic)]
  dsimp only
  rw [dif_neg (by rw [hnum]; omega), dif_neg (by rw [hnum]; exact not_not.mpr hlength)]
  simp only [hrest, hnum, hk]

end BloomFilter

end Signy
