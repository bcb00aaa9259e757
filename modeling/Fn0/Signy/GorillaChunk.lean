/-
The bits of a Gorilla chunk, written and read back.

The writer denotes the bits written so far (`Packs`) and the reader the bits that are left (`BitReader.left`), so that
nothing above the two speaks of bytes. Encoder and decoder stay in step sample by sample (`InStep`).
-/
import Fn0.Signy.Gorilla

namespace Signy.Gorilla

open BitStream

/-! ## The writer -/

theorem ushiftRight_and_one (value : BitVec 64) (i : Nat) :
    ((value >>> i) &&& 1#64 == 1#64) = value.toNat.testBit i := by
  rw [Bool.eq_iff_iff, beq_iff_eq, ← BitVec.toNat_inj, BitVec.toNat_and, BitVec.toNat_ushiftRight,
    Nat.testBit_eq_decide_div_mod_eq, decide_eq_true_eq, Nat.shiftRight_eq_div_pow]
  exact Nat.and_one_is_mod _ ▸ Iff.rfl

/-- The bits a writer holds; what is free of the last byte is zero. -/
def BitWriter.Packs (w : BitWriter) (bits : List Bool) : Prop :=
  bytesBits w.bytes = bits ++ List.replicate w.free false ∧ w.free < 8

theorem packs_new : ({} : BitWriter).Packs [] := ⟨rfl, by decide⟩

namespace BitWriter.Packs

variable {w : BitWriter} {bits : List Bool}

/-- After `ensure` there is a last byte with room in it. -/
theorem ensure (h : w.Packs bits) : ∃ front last, w.ensure.bytes = front ++ [last] ∧
    bytesBits front ++ byteBits last = bits ++ List.replicate w.ensure.free false ∧
      0 < w.ensure.free ∧ w.ensure.free ≤ 8 := by
  obtain ⟨hbits, hfree⟩ := h
  by_cases hzero : w.free = 0
  · refine ⟨w.bytes, 0, ?_⟩
    simp only [BitWriter.ensure, if_pos hzero]
    rw [hbits, hzero]
    refine ⟨trivial, ?_, by decide, by decide⟩
    simp only [List.replicate_zero, List.append_nil]
    rfl
  · simp only [BitWriter.ensure, if_neg hzero]
    have hne : w.bytes ≠ [] := by
      intro hnil
      rw [hnil] at hbits
      have hlength := congrArg List.length hbits
      simp [bytesBits] at hlength
      omega
    refine ⟨w.bytes.dropLast, w.bytes.getLast hne, (List.dropLast_append_getLast hne).symm, ?_, by omega, by omega⟩
    rw [← hbits]
    conv_rhs => rw [← List.dropLast_append_getLast hne, bytesBits_append]
    simp [bytesBits]

theorem writeBit (h : w.Packs bits) (bit : Bool) : (w.writeBit bit).Packs (bits ++ [bit]) := by
  obtain ⟨front, last, hbytes, hbits, hpos, hle⟩ := h.ensure
  refine ⟨?_, by rw [BitWriter.writeBit]; dsimp only; omega⟩
  obtain ⟨free, hfree⟩ : ∃ free, w.ensure.free = free + 1 := ⟨w.ensure.free - 1, by omega⟩
  rw [hfree] at hbits hle
  simp only [BitWriter.writeBit, hfree, hbytes, Nat.add_sub_cancel]
  cases bit with
  | false =>
    simpa [bytesBits, List.replicate_succ] using hbits
  | true =>
    -- the bit to set is the first of the free ones
    have hlength := congrArg List.length hbits
    simp only [List.length_append, length_byteBits, List.length_replicate] at hlength
    have hset := congrArg (List.set · bits.length true) hbits
    rw [List.set_append_right _ _ (by omega), List.set_append_right _ _ le_rfl, Nat.sub_self,
      List.replicate_succ, List.set_cons_zero, (by omega : bits.length - (bytesBits front).length = 7 - free),
      ← byteBits_or last (by omega)] at hset
    rw [if_pos rfl, List.modifyLast_concat, bytesBits_append]
    simpa [bytesBits] using hset

theorem writeBits (h : w.Packs bits) (value : BitVec 64) (count : Nat) :
    (w.writeBits value count).Packs (bits ++ bitsOf count value.toNat) := by
  induction count generalizing w bits with
  | zero => simpa [BitWriter.writeBits, bitsOf] using h
  | succ count ih =>
    have hstep := ih (h.writeBit (value.toNat.testBit count))
    rw [List.append_assoc, List.singleton_append, ← bitsOf] at hstep
    rwa [BitWriter.writeBits, ushiftRight_and_one]

end BitWriter.Packs

/-! ## The reader -/

/-- The bits a reader has not read. -/
def BitReader.left (r : BitReader) : List Bool := (bytesBits r.bytes).drop r.position

theorem ushiftRight_and_one_byte (byte : UInt8) {i : Nat} (h : i < 8) :
    ((byte >>> UInt8.ofNat i) &&& 1 == 1) = byte.toNat.testBit i := by
  have hplaces : (UInt8.ofNat i).toNat % 8 = i := by
    rw [UInt8.toNat_ofNat']
    omega
  rw [Bool.eq_iff_iff, beq_iff_eq, ← UInt8.toNat_inj, UInt8.toNat_and, UInt8.toNat_shiftRight,
    Nat.testBit_eq_decide_div_mod_eq, decide_eq_true_eq, Nat.shiftRight_eq_div_pow, hplaces]
  exact Nat.and_one_is_mod _ ▸ Iff.rfl

/-- The end of the chunk inside a record. -/
def Ends (e : Fault String) : Prop := e = .err "gorilla chunk ends mid-record"

theorem takes_readBit : Eff.Takes BitReader.left readBit 1 (fun used => used.headD false) Ends := by
  intro r
  have hhead : (bytesBits r.bytes)[r.position]? = _ := getElem?_bytesBits r.bytes r.position
  rw [readBit]
  simp only [Eff.sat_bind, Eff.sat_get]
  cases hbyte : r.bytes[r.position / 8]? with
  | none =>
    rw [hbyte] at hhead
    have hleft : r.left = [] := List.drop_eq_nil_of_le (List.getElem?_eq_none_iff.mp hhead)
    exact ⟨rfl, by rw [hleft]; decide⟩
  | some byte =>
    rw [hbyte] at hhead
    obtain ⟨hlt, hget⟩ := List.getElem?_eq_some_iff.mp hhead
    refine ⟨[byte.toNat.testBit (7 - r.position % 8)], rfl, ?_, ushiftRight_and_one_byte byte (by omega)⟩
    rw [BitReader.left, List.drop_eq_getElem_cons hlt, hget]
    rfl

theorem shiftLeft_or_bit (n : Nat) (bit : Bool) :
    (BitVec.ofNat 64 n <<< 1) ||| BitVec.ofNat 64 bit.toNat = BitVec.ofNat 64 (2 * n + bit.toNat) := by
  rw [← BitVec.add_eq_or_of_and_eq_zero]
  · apply BitVec.eq_of_toNat_eq
    have hbit : bit.toNat < 2 := bit.toNat_lt
    simp [Nat.shiftLeft_eq]
    omega
  · ext i hi
    cases bit
    · simp
    · rcases Nat.eq_zero_or_pos i with rfl | hpos
      · simp
      · have hne : i ≠ 0 := by omega
        simp [BitVec.getElem_one, hne]

theorem takes_readBitsFrom (n count : Nat) : Eff.Takes BitReader.left (readBitsFrom (BitVec.ofNat 64 n) count) count
    (fun used => BitVec.ofNat 64 (used.foldl (fun n bit => 2 * n + bit.toNat) n)) Ends := by
  induction count generalizing n with
  | zero => exact fun r => ⟨[], rfl, rfl, rfl⟩
  | succ count ih =>
    intro r
    refine (takes_readBit r).bind ?_ ?_
    · rintro bit r' ⟨used, hused, hr, rfl⟩
      obtain ⟨bit, rfl⟩ := List.length_eq_one_iff.mp hused
      rw [shiftLeft_or_bit]
      refine (ih _ r').mono ?_ ?_
      · rintro value r'' ⟨used', rfl, hr', rfl⟩
        exact ⟨bit :: used', rfl, by rw [hr, hr']; rfl, rfl⟩
      · rintro e r'' ⟨he, hshort⟩
        exact ⟨he, by rw [hr]; simpa using hshort⟩
    · rintro e r' ⟨he, hshort⟩
      exact ⟨he, by omega⟩

theorem takes_readBits (count : Nat) :
    Eff.Takes BitReader.left (readBits count) count (fun used => BitVec.ofNat 64 (numberOf used)) Ends :=
  takes_readBitsFrom 0 count

theorem consumes_readBit (bit : Bool) : Eff.Consumes BitReader.left readBit [bit] bit := takes_readBit.consumes rfl

theorem consumes_readBits {count : Nat} {value : BitVec 64} (h : value.toNat < 2 ^ count) :
    Eff.Consumes BitReader.left (readBits count) (bitsOf count value.toNat) value := by
  have hread := (takes_readBits count).consumes (length_bitsOf count value.toNat)
  rwa [numberOf_bitsOf, Nat.mod_eq_of_lt h, BitVec.ofNat_toNat, BitVec.setWidth_eq] at hread

theorem consumes_word (value : BitVec 64) :
    Eff.Consumes BitReader.left (readBits 64) (bitsOf 64 value.toNat) value :=
  consumes_readBits value.isLt

/-! ## Deltas of deltas -/

/-- The bits of a delta of deltas. -/
def dodBits (dod : BitVec 64) : List Bool :=
  if dod = 0#64 then [false]
  else match dodBuckets.find? (·.contains dod) with
    | some b => bitsOf b.markerBits b.marker.toNat ++ bitsOf b.payloadBits (dod + BitVec.ofInt 64 b.offset).toNat
    | none => bitsOf 4 15 ++ bitsOf 64 (zigzag dod).toNat

theorem BitWriter.Packs.writeDod {w : BitWriter} {bits : List Bool} (h : w.Packs bits) (dod : BitVec 64) :
    (writeDod w dod).Packs (bits ++ dodBits dod) := by
  rw [Gorilla.writeDod, dodBits]
  split
  · exact h.writeBit false
  · cases dodBuckets.find? (·.contains dod) with
    | none =>
      rw [← List.append_assoc]
      exact (h.writeBits 0b1111 4).writeBits _ 64
    | some b =>
      rw [← List.append_assoc]
      exact (h.writeBits _ _).writeBits _ _

/-- What a bucket holds fits its payload, offset included. -/
theorem payload_lt {b : DodBucket} (hb : b ∈ dodBuckets) {dod : BitVec 64} (h : b.contains dod = true) :
    (dod + BitVec.ofInt 64 b.offset).toNat < 2 ^ b.payloadBits := by
  have hcond := BitVec.toInt_eq_toNat_cond dod
  have hlt := dod.isLt
  rw [DodBucket.contains, decide_eq_true_eq] at h
  simp only [dodBuckets, List.mem_cons, List.not_mem_nil, or_false] at hb
  rw [BitVec.toNat_add]
  rcases hb with rfl | rfl | rfl <;> dsimp only at h ⊢ <;> norm_num at h hcond ⊢ <;> split at hcond <;> omega

theorem consumes_readDod (dod : BitVec 64) : Eff.Consumes BitReader.left readDod (dodBits dod) dod := by
  rw [dodBits, readDod]
  split
  next hzero =>
    subst hzero
    exact (consumes_readBit false).bind_cons (Eff.consumes_pure _)
  next =>
    cases hfind : dodBuckets.find? (·.contains dod) with
    | none =>
      have h := (consumes_word (zigzag dod)).map unzigzag
      rw [unzigzag_zigzag] at h
      have hmarker : bitsOf 4 15 = [true, true, true, true] := by decide
      dsimp only
      rw [hmarker]
      exact (consumes_readBit true).bind_cons ((consumes_readBit true).bind_cons ((consumes_readBit true).bind_cons
        ((consumes_readBit true).bind_cons h)))
    | some b =>
      have hcontains : b.contains dod = true := by simpa using List.find?_some hfind
      have hmem := List.mem_of_find?_eq_some hfind
      have h := (consumes_readBits (payload_lt hmem hcontains)).map (· - BitVec.ofInt 64 b.offset)
      rw [BitVec.add_sub_cancel] at h
      simp only [dodBuckets, List.mem_cons, List.not_mem_nil, or_false] at hmem
      rcases hmem with rfl | rfl | rfl
      · have hmarker : bitsOf 2 (2 : BitVec 64).toNat = [true, false] := by decide
        dsimp only at h ⊢
        rw [hmarker]
        exact (consumes_readBit true).bind_cons ((consumes_readBit false).bind_cons h)
      · have hmarker : bitsOf 3 (6 : BitVec 64).toNat = [true, true, false] := by decide
        dsimp only at h ⊢
        rw [hmarker]
        exact (consumes_readBit true).bind_cons ((consumes_readBit true).bind_cons
          ((consumes_readBit false).bind_cons h))
      · have hmarker : bitsOf 4 (14 : BitVec 64).toNat = [true, true, true, false] := by decide
        dsimp only at h ⊢
        rw [hmarker]
        exact (consumes_readBit true).bind_cons ((consumes_readBit true).bind_cons ((consumes_readBit true).bind_cons
          ((consumes_readBit false).bind_cons h)))

/-! ## Values -/

section Windows

variable {x : BitVec 64} (hx : x ≠ 0#64) {leading trailing : Nat} (hleading : leading ≤ x.clz.toNat)
  (htrailing : trailing ≤ x.ctz.toNat)
include hleading htrailing

include hx in
theorem window_lt : leading + trailing < 64 := by
  have hlow := BitVec.two_pow_ctz_le_toNat_of_ne_zero hx
  have hhigh := @BitVec.toNat_lt_two_pow_sub_clz 64 x
  have hlt := (Nat.pow_lt_pow_iff_right (by decide : 1 < 2)).mp (hlow.trans_lt hhigh)
  omega

theorem toNat_ushiftRight_lt (hwindow : leading + trailing < 64) :
    (x >>> trailing).toNat < 2 ^ (64 - leading - trailing) := by
  rw [BitVec.toNat_ushiftRight, Nat.shiftRight_eq_div_pow, Nat.div_lt_iff_lt_mul (by positivity), ← Nat.pow_add]
  refine (@BitVec.toNat_lt_two_pow_sub_clz 64 x).trans_le (Nat.pow_le_pow_right (by decide) ?_)
  omega

omit hleading in
theorem shiftLeft_ushiftRight : (x >>> trailing) <<< trailing = x := by
  ext i hi
  rw [BitVec.getElem_shiftLeft, BitVec.getElem_ushiftRight]
  rcases Nat.lt_or_ge i trailing with hlt | hge
  · have hzero := BitVec.getLsbD_false_of_lt_ctz (hlt.trans_le htrailing)
    rw [BitVec.getLsbD_eq_getElem hi] at hzero
    simp [hlt, hzero]
  · have hnot : ¬i < trailing := by omega
    rw [(by omega : trailing + (i - trailing) = i), BitVec.getLsbD_eq_getElem hi]
    simp [hnot]

end Windows

theorem checkedSub_ok {a b : Nat} (h : b ≤ a) : checkedSub a b = .ok (a - b) := if_pos h

theorem consumes_readMeaningful {x : BitVec 64} {leading trailing : Nat} (hwindow : leading + trailing < 64)
    (hleading : leading ≤ x.clz.toNat) (htrailing : trailing ≤ x.ctz.toNat) :
    Eff.Consumes BitReader.left (Decoder.readMeaningful (leading, trailing))
      (bitsOf (64 - leading - trailing) (x >>> trailing).toNat) x := by
  have hread := consumes_readBits (toNat_ushiftRight_lt hleading htrailing hwindow)
  have hshift : checkedShl (x >>> trailing) trailing = .ok x := by
    rw [checkedShl, if_pos (by omega), shiftLeft_ushiftRight htrailing]
  exact (Eff.consumes_ofExcept (checkedSub_ok (by omega))).bind_nil
    ((Eff.consumes_ofExcept (checkedSub_ok (by omega))).bind_nil (hread.andThen (Eff.consumes_ofExcept hshift)))

theorem toNat_ofNat_of_lt {n : Nat} (h : n < 2 ^ 64) : (BitVec.ofNat 64 n).toNat = n := by
  rw [BitVec.toNat_ofNat, Nat.mod_eq_of_lt h]

/-- The width of a window in six bits: 64 is written as 0. -/
theorem toNat_and_63 (n : Nat) (h : n ≤ 64) : (BitVec.ofNat 64 n &&& 63#64).toNat = n % 64 := by
  rw [BitVec.toNat_and, toNat_ofNat_of_lt (by omega)]
  exact Nat.and_two_pow_sub_one_eq_mod n 6

theorem consumes_readWindow {leading trailing : Nat} (hwindow : leading + trailing < 64) (hleading : leading ≤ 31) :
    Eff.Consumes BitReader.left Decoder.readWindow (bitsOf 5 (BitVec.ofNat 64 leading).toNat ++
      bitsOf 6 (BitVec.ofNat 64 (64 - leading - trailing) &&& 63#64).toNat) (leading, trailing) := by
  have hleadingNat := toNat_ofNat_of_lt (by omega : leading < 2 ^ 64)
  have hwidth := toNat_and_63 (64 - leading - trailing) (by omega)
  have hfirst : Eff.Consumes BitReader.left (readBits 5) _ (BitVec.ofNat 64 leading) :=
    consumes_readBits (by rw [hleadingNat]; omega)
  have hsecond : Eff.Consumes BitReader.left (readBits 6) _ (BitVec.ofNat 64 (64 - leading - trailing) &&& 63#64) :=
    consumes_readBits (by rw [hwidth]; omega)
  have hsignificant : (if (64 - leading - trailing) % 64 = 0 then 64 else (64 - leading - trailing) % 64) =
      64 - leading - trailing := by
    split <;> omega
  refine hfirst.bind (hsecond.andThen ?_)
  dsimp only
  rw [hleadingNat, hwidth, hsignificant]
  have hrest : checkedSub (64 - leading) (64 - leading - trailing) = .ok trailing := by
    rw [checkedSub_ok (by omega)]
    congr 1
    omega
  exact (Eff.consumes_ofExcept (checkedSub_ok (by omega))).bind_nil
    ((Eff.consumes_ofExcept hrest).bind_nil (Eff.consumes_pure _))

/-- The bits of a value behind the first. -/
def valueBits (e : Encoder) (bits : BitVec 64) : List Bool :=
  let xor := bits ^^^ e.prevBits
  if xor = 0#64 then [false]
  else
    let leading := min xor.clz.toNat 31
    let trailing := xor.ctz.toNat
    if e.windowSet = true ∧ e.leading ≤ leading ∧ e.trailing ≤ trailing then
      [true, false] ++ bitsOf (64 - e.leading - e.trailing) (xor >>> e.trailing).toNat
    else
      [true, true] ++ (bitsOf 5 (BitVec.ofNat 64 leading).toNat ++
        bitsOf 6 (BitVec.ofNat 64 (64 - leading - trailing) &&& 63#64).toNat) ++
          bitsOf (64 - leading - trailing) (xor >>> trailing).toNat

theorem packs_appendValue {e : Encoder} {held : List Bool} (h : e.writer.Packs held) (bits : BitVec 64) :
    (e.appendValue bits).writer.Packs (held ++ valueBits e bits) := by
  rw [Encoder.appendValue, valueBits]
  dsimp only
  split
  · exact h.writeBit false
  · split
    · have hw := ((h.writeBit true).writeBit false).writeBits ((bits ^^^ e.prevBits) >>> e.trailing)
        (64 - e.leading - e.trailing)
      simpa only [List.append_assoc, List.cons_append, List.nil_append] using hw
    · simp only [← List.append_assoc]
      have hw := (h.writeBit true).writeBit true
      rw [List.append_assoc] at hw
      exact ((hw.writeBits _ 5).writeBits _ 6).writeBits _ _

/-- A window is the one an encoder has open, if it has one. -/
def Encoder.Window (e : Encoder) (window : Nat × Nat) : Prop :=
  e.windowSet = true → window = (e.leading, e.trailing) ∧ e.leading + e.trailing < 64

theorem consumes_nextBits {e : Encoder} {d : Decoder} (hbits : d.prevBits = e.prevBits)
    (hwindow : e.Window (d.leading, d.trailing)) {index : Nat} (hindex : index ≠ 0) (bits : BitVec 64) :
    ∃ window, Eff.Consumes BitReader.left (d.nextBits index) (valueBits e bits) (bits, window) ∧
      (e.appendValue bits).Window window := by
  rw [Decoder.nextBits, if_neg hindex, valueBits, Encoder.appendValue, hbits]
  have hback : e.prevBits ^^^ (bits ^^^ e.prevBits) = bits := by
    rw [BitVec.xor_comm, BitVec.xor_assoc, BitVec.xor_self, BitVec.xor_zero]
  generalize bits ^^^ e.prevBits = x at hback ⊢
  subst hback
  dsimp only
  by_cases hzero : x = 0#64
  · subst hzero
    simp only [if_pos]
    refine ⟨(d.leading, d.trailing), ?_, hwindow⟩
    rw [BitVec.xor_zero]
    exact (consumes_readBit false).bind_cons (Eff.consumes_pure _)
  · simp only [if_neg hzero]
    by_cases hopen : e.windowSet = true ∧ e.leading ≤ min x.clz.toNat 31 ∧ e.trailing ≤ x.ctz.toNat
    · obtain ⟨hset, hleading, htrailing⟩ := hopen
      simp only [if_pos (⟨hset, hleading, htrailing⟩ : _ ∧ _ ∧ _)]
      obtain ⟨hsame, hwindow⟩ := hwindow hset
      refine ⟨(d.leading, d.trailing), ?_, fun _ => ⟨hsame, hwindow⟩⟩
      have hread := consumes_readMeaningful hwindow (hleading.trans (min_le_left _ _)) htrailing
      rw [hsame]
      refine (consumes_readBit true).bind_cons ((consumes_readBit false).bind_cons ?_)
      exact hread.map fun meaningful => (e.prevBits ^^^ meaningful, e.leading, e.trailing)
    · simp only [if_neg hopen]
      have hwindow := window_lt hzero (min_le_left x.clz.toNat 31) le_rfl
      refine ⟨(min x.clz.toNat 31, x.ctz.toNat), ?_, fun _ => ⟨rfl, hwindow⟩⟩
      have hread := consumes_readMeaningful hwindow (min_le_left _ _) le_rfl
      refine (consumes_readBit true).bind_cons ((consumes_readBit true).bind_cons ?_)
      exact (consumes_readWindow hwindow (min_le_right _ _)).bind (hread.map fun meaningful =>
        (e.prevBits ^^^ meaningful, min x.clz.toNat 31, x.ctz.toNat))

/-! ## Samples -/

/-- The bits of a sample's timestamp. -/
def stampBits (e : Encoder) (ts : BitVec 64) : List Bool :=
  if e.count = 0 then bitsOf 64 ts.toNat
  else if e.count = 1 then bitsOf 64 (zigzag (ts - e.prevTs)).toNat
  else dodBits (ts - e.prevTs - e.prevDelta)

/-- The bits of a sample. -/
def sampleBits (e : Encoder) (s : Sample) : List Bool :=
  stampBits e s.1 ++ if e.count = 0 then bitsOf 64 s.2.toNat else valueBits e s.2

theorem packs_append {e : Encoder} {held : List Bool} (h : e.writer.Packs held) (s : Sample) :
    (e.append s).writer.Packs (held ++ sampleBits e s) := by
  rw [sampleBits, stampBits, ← List.append_assoc, Encoder.append]
  dsimp only
  rw [Encoder.appendSample]
  by_cases hzero : e.count = 0
  · simp only [if_pos hzero]
    exact (h.writeBits _ 64).writeBits _ 64
  · simp only [if_neg hzero]
    split
    · exact packs_appendValue (h.writeBits (zigzag (s.1 - e.prevTs)) 64) s.2
    · exact packs_appendValue (h.writeDod (s.1 - e.prevTs - e.prevDelta)) s.2

/-- A decoder has what an encoder has between two samples. -/
structure InStep (e : Encoder) (d : Decoder) : Prop where
  ts : d.prevTs = e.prevTs
  delta : d.prevDelta = e.prevDelta
  bits : d.prevBits = e.prevBits
  window : e.Window (d.leading, d.trailing)

theorem prevDelta_appendValue (e : Encoder) (bits : BitVec 64) : (e.appendValue bits).prevDelta = e.prevDelta := by
  rw [Encoder.appendValue]
  dsimp only
  split
  · rfl
  · split <;> rfl

theorem consumes_nextSample_of {d : Decoder} {index : Nat} {front back : List Bool} {ts delta bits : BitVec 64}
    {window : Nat × Nat} (hts : Eff.Consumes BitReader.left (d.nextTimestamp index) front (ts, delta))
    (hbits : Eff.Consumes BitReader.left (d.nextBits index) back (bits, window)) :
    Eff.Consumes BitReader.left (d.nextSample index) (front ++ back) ((ts, bits),
      { d with prevTs := ts, prevDelta := delta, prevBits := bits, leading := window.1, trailing := window.2 }) :=
  hts.bind (hbits.andThen (Eff.consumes_pure _))

/-- A sample behind the first, whichever way its timestamp was written. -/
theorem consumes_later {e : Encoder} {d : Decoder} (h : InStep e d) {index : Nat} (hindex : index ≠ 0) (w : BitWriter)
    {front : List Bool} {ts delta : BitVec 64} (bits : BitVec 64)
    (hts : Eff.Consumes BitReader.left (d.nextTimestamp index) front (ts, delta)) :
    ∃ d', Eff.Consumes BitReader.left (d.nextSample index) (front ++ valueBits e bits) ((ts, bits), d') ∧
      InStep { { e with writer := w, prevDelta := delta }.appendValue bits with
        prevTs := ts, prevBits := bits, count := e.count + 1 } d' ∧ d'.total = d.total := by
  obtain ⟨window, hbits, hwindow⟩ :=
    @consumes_nextBits { e with writer := w, prevDelta := delta } d h.bits h.window index hindex bits
  refine ⟨_, consumes_nextSample_of hts hbits, ⟨rfl, ?_, rfl, hwindow⟩, rfl⟩
  dsimp only
  rw [prevDelta_appendValue]

/-- Encoder and decoder stay in step over a sample. -/
theorem consumes_nextSample {e : Encoder} {d : Decoder} (h : InStep e d) (s : Sample) :
    ∃ d', Eff.Consumes BitReader.left (d.nextSample e.count.toNat) (sampleBits e s) (s, d') ∧
      InStep (e.append s) d' ∧ d'.total = d.total := by
  obtain ⟨ts, bits⟩ := s
  have hback : d.prevTs + (ts - e.prevTs) = ts := by rw [h.ts, BitVec.add_comm, BitVec.sub_add_cancel]
  rw [sampleBits, stampBits, Encoder.append]
  dsimp only
  rw [Encoder.appendSample]
  by_cases hzero : e.count = 0
  · have hindex : e.count.toNat = 0 := by rw [hzero]; rfl
    simp only [if_pos hzero, hindex]
    exact ⟨_, consumes_nextSample_of ((consumes_word ts).map (·, d.prevDelta))
      ((consumes_word bits).map (·, d.leading, d.trailing)), ⟨rfl, h.delta, rfl, h.window⟩, rfl⟩
  · have hne : e.count.toNat ≠ 0 := fun h0 => hzero (UInt32.toNat_inj.mp h0)
    simp only [if_neg hzero]
    by_cases hone : e.count = 1
    · have hindex : e.count.toNat = 1 := by rw [hone]; rfl
      have hword := (consumes_word (zigzag (ts - e.prevTs))).map fun word => (d.prevTs + unzigzag word, unzigzag word)
      rw [unzigzag_zigzag, hback] at hword
      simp only [if_pos hone]
      refine consumes_later h hne _ bits ?_
      rw [hindex]
      exact hword
    · obtain ⟨index, hindex⟩ : ∃ index, e.count.toNat = index + 2 := by
        have hne1 : e.count.toNat ≠ 1 := fun h1 => hone (UInt32.toNat_inj.mp h1)
        exact ⟨e.count.toNat - 2, by omega⟩
      have hdod := (consumes_readDod (ts - e.prevTs - e.prevDelta)).map fun dod =>
        (d.prevTs + (e.prevDelta + dod), e.prevDelta + dod)
      rw [BitVec.add_comm e.prevDelta, BitVec.sub_add_cancel, hback] at hdod
      simp only [if_neg hone]
      refine consumes_later h hne _ bits ?_
      rw [hindex, Decoder.nextTimestamp, h.delta]
      · exact hdod
      · omega
      · omega

/-- The bits of a run of samples. -/
def streamBits : Encoder → List Sample → List Bool
  | _, [] => []
  | e, s :: samples => sampleBits e s ++ streamBits (e.append s) samples

theorem packs_foldl (samples : List Sample) : ∀ {e : Encoder} {held : List Bool}, e.writer.Packs held →
    (samples.foldl Encoder.append e).writer.Packs (held ++ streamBits e samples) := by
  induction samples with
  | nil =>
    intro e held h
    simpa [streamBits] using h
  | cons s samples ih =>
    intro e held h
    rw [List.foldl_cons, streamBits, ← List.append_assoc]
    exact ih (packs_append h s)

theorem count_foldl (samples : List Sample) : ∀ e : Encoder,
    (samples.foldl Encoder.append e).count.toNat = (e.count.toNat + samples.length) % 2 ^ 32 := by
  induction samples with
  | nil => exact fun e => (Nat.mod_eq_of_lt e.count.toNat_lt).symm
  | cons s samples ih =>
    intro e
    have hcount : (e.append s).count.toNat = (e.count.toNat + 1) % 2 ^ 32 := UInt32.toNat_add e.count 1
    rw [List.foldl_cons, ih, hcount, List.length_cons]
    omega

theorem consumes_collect (samples : List Sample) : ∀ {e : Encoder} {d : Decoder}, InStep e d →
    d.total = e.count.toNat + samples.length → d.total < 2 ^ 32 →
    Eff.Consumes BitReader.left (d.collect samples.length) (streamBits e samples) samples := by
  induction samples with
  | nil => exact fun _ _ _ => Eff.consumes_pure []
  | cons s samples ih =>
    intro e d h htotal hlt
    obtain ⟨d', hread, hstep, htotal'⟩ := consumes_nextSample h s
    rw [List.length_cons] at htotal
    have hcount : (e.append s).count.toNat = e.count.toNat + 1 := by
      have hadd : (e.append s).count.toNat = (e.count.toNat + 1) % 2 ^ 32 := UInt32.toNat_add e.count 1
      omega
    have hindex : d.total - (samples.length + 1) = e.count.toNat := by omega
    have hrest := ih hstep (by omega) (by omega)
    rw [List.length_cons, Decoder.collect, streamBits, hindex]
    exact hread.bind (hrest.map (s :: ·))

end Signy.Gorilla
