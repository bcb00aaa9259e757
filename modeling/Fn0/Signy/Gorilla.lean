/-
Gorilla sample chunks (signy/src/gorilla.rs): delta-of-delta timestamps and XOR values in a bit stream behind a sample
count.

Timestamps are `i64` and values the bit patterns of `f64`, both 64-bit words. The decoder's state is a reader over the
chunk next to the fields carried from sample to sample. Arithmetic that overflows, a shift by 64 places or more and an
index outside the chunk are panics here, as in a build with overflow checks.
-/
import Fn0.Lib.BitStream
import Fn0.Lib.Codec
import Fn0.Lib.Streams

namespace Signy.Gorilla

open BitStream

/-! ## Bits -/

/-- Bits fill each byte from the high end; `free` bits of the last byte are left. -/
structure BitWriter where
  bytes : Bytes := []
  free : Nat := 0
deriving DecidableEq, Repr

namespace BitWriter

/-- The byte the next bit goes to. -/
def ensure (w : BitWriter) : BitWriter := if w.free = 0 then { bytes := w.bytes ++ [0], free := 8 } else w

def writeBit (w : BitWriter) (bit : Bool) : BitWriter :=
  { bytes :=
      if bit then w.ensure.bytes.modifyLast (· ||| 1 <<< UInt8.ofNat (w.ensure.free - 1)) else w.ensure.bytes
    free := w.ensure.free - 1 }

/-- The low `count` bits of a word, most significant first. -/
def writeBits (w : BitWriter) (value : BitVec 64) : Nat → BitWriter
  | 0 => w
  | count + 1 => writeBits (w.writeBit ((value >>> count) &&& 1#64 == 1#64)) value count

end BitWriter

structure BitReader where
  bytes : Bytes
  position : Nat
deriving DecidableEq, Repr

abbrev Reading (α : Type) : Type := Eff (Fault String) BitReader α

def readBit : Reading Bool := do
  let reader ← get
  match reader.bytes[reader.position / 8]? with
  | none => throw (.err "gorilla chunk ends mid-record")
  | some byte => do
    set { reader with position := reader.position + 1 }
    return (byte >>> UInt8.ofNat (7 - reader.position % 8)) &&& 1 == 1

/-- The loop of `read_bits`. -/
def readBitsFrom (value : BitVec 64) : Nat → Reading (BitVec 64)
  | 0 => return value
  | count + 1 => do
    let bit ← readBit
    readBitsFrom ((value <<< 1) ||| BitVec.ofNat 64 bit.toNat) count

def readBits (count : Nat) : Reading (BitVec 64) := readBitsFrom 0#64 count

/-! ## The encoder -/

/-- A timestamp and a value. -/
abbrev Sample : Type := BitVec 64 × BitVec 64

/-- A row of `DOD_BUCKETS`. -/
structure DodBucket where
  marker : BitVec 64
  markerBits : Nat
  payloadBits : Nat
  offset : Int
deriving DecidableEq, Repr

def dodBuckets : List DodBucket := [⟨0b10, 2, 14, 8191⟩, ⟨0b110, 3, 17, 65535⟩, ⟨0b1110, 4, 20, 524287⟩]

/-- `(-offset..=offset + 1).contains(&dod)`. -/
def DodBucket.contains (b : DodBucket) (dod : BitVec 64) : Bool := -b.offset ≤ dod.toInt ∧ dod.toInt ≤ b.offset + 1

def writeDod (w : BitWriter) (dod : BitVec 64) : BitWriter :=
  if dod = 0#64 then w.writeBit false
  else match dodBuckets.find? (·.contains dod) with
    | some b => (w.writeBits b.marker b.markerBits).writeBits (dod + BitVec.ofInt 64 b.offset) b.payloadBits
    | none => (w.writeBits 0b1111 4).writeBits (zigzag dod) 64

structure Encoder where
  writer : BitWriter := {}
  count : UInt32 := 0
  prevTs : BitVec 64 := 0
  prevDelta : BitVec 64 := 0
  prevBits : BitVec 64 := 0
  leading : Nat := 0
  trailing : Nat := 0
  windowSet : Bool := false
deriving DecidableEq, Repr

namespace Encoder

def byteLen (e : Encoder) : Nat := 4 + e.writer.bytes.length

def appendValue (e : Encoder) (bits : BitVec 64) : Encoder :=
  let xor := bits ^^^ e.prevBits
  if xor = 0#64 then { e with writer := e.writer.writeBit false }
  else
    let w := e.writer.writeBit true
    let leading := min xor.clz.toNat 31
    let trailing := xor.ctz.toNat
    if e.windowSet = true ∧ e.leading ≤ leading ∧ e.trailing ≤ trailing then
      { e with writer := (w.writeBit false).writeBits (xor >>> e.trailing) (64 - e.leading - e.trailing) }
    else
      let significant := 64 - leading - trailing
      let w := (w.writeBit true).writeBits (BitVec.ofNat 64 leading) 5
      let w := w.writeBits (BitVec.ofNat 64 significant &&& 63#64) 6
      { e with
        writer := w.writeBits (xor >>> trailing) significant
        leading := leading
        trailing := trailing
        windowSet := true }

/-- The timestamp of a sample, and its value behind it. -/
def appendSample (e : Encoder) (ts bits : BitVec 64) : Encoder :=
  if e.count = 0 then { e with writer := (e.writer.writeBits ts 64).writeBits bits 64 }
  else
    let delta := ts - e.prevTs
    if e.count = 1 then { e with writer := e.writer.writeBits (zigzag delta) 64, prevDelta := delta }.appendValue bits
    else { e with writer := writeDod e.writer (delta - e.prevDelta), prevDelta := delta }.appendValue bits

/-- The count wraps, as in a build without overflow checks. -/
def append (e : Encoder) (s : Sample) : Encoder :=
  { e.appendSample s.1 s.2 with prevTs := s.1, prevBits := s.2, count := e.count + 1 }

/-- The chunk as stored. -/
def close (e : Encoder) : Bytes := Bytes.ofNatLE 4 e.count.toNat ++ e.writer.bytes

end Encoder

/-- An encoder after some samples. -/
def encode (samples : List Sample) : Encoder := samples.foldl Encoder.append {}

/-! ## The decoder -/

/-- `a - b` on `u8`. -/
def checkedSub (a b : Nat) : Except (Fault String) Nat := if b ≤ a then .ok (a - b) else .error .panic

/-- `value << places` on `u64`. -/
def checkedShl (value : BitVec 64) (places : Nat) : Except (Fault String) (BitVec 64) :=
  if places < 64 then .ok (value <<< places) else .error .panic

structure Decoder where
  total : Nat
  prevTs : BitVec 64 := 0
  prevDelta : BitVec 64 := 0
  prevBits : BitVec 64 := 0
  leading : Nat := 0
  trailing : Nat := 0
deriving DecidableEq, Repr

def readDod : Reading (BitVec 64) := do
  match ← readBit with
  | false => return 0#64
  | true =>
    match ← readBit with
    | false => return (← readBits 14) - 8191#64
    | true =>
      match ← readBit with
      | false => return (← readBits 17) - 65535#64
      | true =>
        match ← readBit with
        | false => return (← readBits 20) - 524287#64
        | true => return unzigzag (← readBits 64)

namespace Decoder

/-- The timestamp of sample `index`, and the delta it leaves behind. -/
def nextTimestamp (d : Decoder) : Nat → Reading (BitVec 64 × BitVec 64)
  | 0 => return (← readBits 64, d.prevDelta)
  | 1 => do
    let delta := unzigzag (← readBits 64)
    return (d.prevTs + delta, delta)
  | _ => do
    let delta := d.prevDelta + (← readDod)
    return (d.prevTs + delta, delta)

/-- A window read from the stream: the leading zeros, and the trailing ones that are left. -/
def readWindow : Reading (Nat × Nat) := do
  let leading := (← readBits 5).toNat
  let significant := (← readBits 6).toNat
  let significant := if significant = 0 then 64 else significant
  let rest ← Eff.ofExcept (checkedSub 64 leading)
  return (leading, ← Eff.ofExcept (checkedSub rest significant))

/-- The bits a value differs in, in their place. -/
def readMeaningful (window : Nat × Nat) : Reading (BitVec 64) := do
  let rest ← Eff.ofExcept (checkedSub 64 window.1)
  let significant ← Eff.ofExcept (checkedSub rest window.2)
  let meaningful ← readBits significant
  Eff.ofExcept (checkedShl meaningful window.2)

/-- The value of sample `index`, and the window it leaves behind. -/
def nextBits (d : Decoder) (index : Nat) : Reading (BitVec 64 × Nat × Nat) := do
  if index = 0 then return (← readBits 64, d.leading, d.trailing)
  else
    match ← readBit with
    | false => return (d.prevBits, d.leading, d.trailing)
    | true =>
      match ← readBit with
      | false => return (d.prevBits ^^^ (← readMeaningful (d.leading, d.trailing)), d.leading, d.trailing)
      | true =>
        let window ← readWindow
        return (d.prevBits ^^^ (← readMeaningful window), window)

def nextSample (d : Decoder) (index : Nat) : Reading (Sample × Decoder) := do
  let (ts, delta) ← d.nextTimestamp index
  let (bits, leading, trailing) ← d.nextBits index
  return ((ts, bits),
    { d with prevTs := ts, prevDelta := delta, prevBits := bits, leading := leading, trailing := trailing })

/-- `collect`: the iterator until it has nothing remaining, or its first error. -/
def collect (d : Decoder) : Nat → Reading (List Sample)
  | 0 => return []
  | remaining + 1 => do
    let (sample, d) ← d.nextSample (d.total - (remaining + 1))
    return sample :: (← collect d remaining)

end Decoder

def decodeAll (chunk : Bytes) : Except (Fault String) (List Sample) :=
  if chunk.length < 4 then .error (.err "gorilla chunk is shorter than its count header")
  else do
    let header := [← Codec.index chunk 0, ← Codec.index chunk 1, ← Codec.index chunk 2, ← Codec.index chunk 3]
    let count := Bytes.toNatLE header
    (({ total := count : Decoder }.collect count).exec { bytes := chunk, position := 32 }).1

end Signy.Gorilla
