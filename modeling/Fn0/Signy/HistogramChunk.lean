/-
Histogram chunks (signy/src/histogram_chunk.rs): a series' observations as runs of one boundary schema, every number of
a run as a varint of its difference to the point before.

Floats are bit patterns; `boundsEq` is the comparison of `[f64]` on them. Signed differences are two's complement words,
which wrap as in a release build. A `u64` is a number below `2 ^ 64`. Allocation is left out.
-/
import Fn0.Lib.BitStream
import Fn0.Lib.Codec
import Fn0.Lib.Streams
import Fn0.Signy.ExponentialHistogram

namespace Signy.HistogramChunk

open BitStream

/-- A timestamp and what was observed. -/
abbrev Point : Type := BitVec 64 × HistogramPoint

/-! ## Floats -/

/-- The bits of a float without its sign. -/
def magnitude (bits : UInt64) : UInt64 := bits &&& 0x7FFFFFFFFFFFFFFF

def isNaN (bits : UInt64) : Bool := 0x7FF0000000000000 < magnitude bits

/-- `==` on `f64`: NaN is equal to nothing, and the zeros to each other. -/
def floatEq (a b : UInt64) : Bool := !isNaN a && !isNaN b && (a == b || (magnitude a == 0 && magnitude b == 0))

/-- `==` on `[f64]`. -/
def boundsEq : List UInt64 → List UInt64 → Bool
  | [], [] => true
  | a :: as, b :: bs => floatEq a b && boundsEq as bs
  | _, _ => false

/-! ## Encoding -/

/-- The loop of `put_uvarint`; a `u64` has at most ten groups of seven bits. -/
def putGroups : Nat → Nat → Bytes
  | 0, value => [UInt8.ofNat value]
  | groups + 1, value =>
    if 0x80 ≤ value then (UInt8.ofNat value ||| 0x80) :: putGroups groups (value >>> 7) else [UInt8.ofNat value]

def putUvarint (value : Nat) : Bytes := putGroups 9 value

def putIvarint (value : BitVec 64) : Bytes := putUvarint (zigzag value).toNat

/-- The runs of `encode`: `run` is what began at `start`. -/
def runsFrom (start : Point) (run : List Point) : List Point → List (List Point)
  | [] => [run]
  | point :: points =>
    if !boundsEq point.2.bounds start.2.bounds then run :: runsFrom point [point] points
    else runsFrom start (run ++ [point]) points

def runs : List Point → List (List Point)
  | [] => []
  | point :: points => runsFrom point [point] points

def putSum : Option UInt64 → Bytes
  | some sum => 1 :: Bytes.ofNatLE 8 sum.toNat
  | none => [0]

/-- The cumulative counts of a point against those before it, and the ones to go on from. -/
def putCumulative : List (BitVec 64) → List UInt64 → Bytes × List (BitVec 64)
  | previous, [] => ([], previous)
  | [], value :: values =>
    let (out, previous) := putCumulative [] values
    (putIvarint (value.toBitVec - 0) ++ out, previous)
  | slot :: previous, value :: values =>
    let (out, previous) := putCumulative previous values
    (putIvarint (value.toBitVec - slot) ++ out, value.toBitVec :: previous)

def putPoints (previousTs previousCount : BitVec 64) (previousCumulative : List (BitVec 64)) : List Point → Bytes
  | [] => []
  | (ts, point) :: points =>
    let (cumulative, previousCumulative) := putCumulative previousCumulative point.cumulative
    putIvarint (ts - previousTs) ++ putIvarint (point.count.toBitVec - previousCount) ++ putSum point.sum ++
      cumulative ++ putPoints ts point.count.toBitVec previousCumulative points

def putRun (run : List Point) : Bytes :=
  match run with
  | [] => []
  | (_, first) :: _ =>
    putUvarint first.bounds.length ++ first.bounds.flatMap (fun bound => Bytes.ofNatLE 8 bound.toNat) ++
      putUvarint run.length ++ putPoints 0 0 (List.replicate first.bounds.length 0) run

def encode (points : List Point) : Bytes := putUvarint (runs points).length ++ (runs points).flatMap putRun

/-! ## Decoding -/

/-- A byte string and a place in it. -/
structure Cursor where
  bytes : Bytes
  pos : Nat := 0
  pos_le : pos ≤ bytes.length := by exact Nat.zero_le _

abbrev Reading (α : Type) : Type := Eff String Cursor α

def take (len : Nat) : Reading Bytes := do
  let cursor ← get
  if h : cursor.pos + len ≤ cursor.bytes.length then
    set { cursor with pos := cursor.pos + len, pos_le := h : Cursor }
    return (cursor.bytes.drop cursor.pos).take len
  else throw "histogram chunk is truncated"

def getByte : Reading UInt8 := return (← take 1).headD 0

/-- The loop of `get_uvarint`. The eleventh byte is refused, so that it ends. -/
def getUvarintFrom (value shift : Nat) : Nat → Reading Nat
  | 0 => throw "histogram chunk has an overlong varint"
  | bytes + 1 => do
    let byte ← getByte
    if 64 ≤ shift then throw "histogram chunk has an overlong varint"
    else
      let value := value ||| ((byte &&& 0x7f).toNat <<< shift) % 2 ^ 64
      if byte &&& 0x80 = 0 then return value else getUvarintFrom value (shift + 7) bytes

def getUvarint : Reading Nat := getUvarintFrom 0 0 11

def getIvarint : Reading (BitVec 64) := return unzigzag (BitVec.ofNat 64 (← getUvarint))

/-- `f64::from_le_bytes` of the next eight bytes. -/
def getFloat : Reading UInt64 := return UInt64.ofNat (Bytes.toNatLE (← take 8))

def getFloats : Nat → Reading (List UInt64)
  | 0 => return []
  | count + 1 => do
    let bound ← getFloat
    return bound :: (← getFloats count)

def getSum : Reading (Option UInt64) := do
  let flag ← getByte
  if flag = 0 then return none
  else if flag = 1 then return some (← getFloat)
  else throw s!"histogram point has sum flag {flag.toNat}"

/-- `for slot in cumulative.iter_mut()`. -/
def getCumulative : List (BitVec 64) → Reading (List (BitVec 64))
  | [] => return []
  | slot :: slots => do
    let slot := slot + (← getIvarint)
    return slot :: (← getCumulative slots)

def getPoints (bounds : List UInt64) (ts count : BitVec 64) (cumulative : List (BitVec 64)) : Nat → Reading (List Point)
  | 0 => return []
  | points + 1 => do
    let ts := ts + (← getIvarint)
    let count := count + (← getIvarint)
    let sum ← getSum
    let cumulative ← getCumulative cumulative
    let point : HistogramPoint :=
      { bounds := bounds, cumulative := cumulative.map UInt64.ofBitVec, sum := sum, count := UInt64.ofBitVec count }
    return (ts, point) :: (← getPoints bounds ts count cumulative points)

def getRun : Reading (List Point) := do
  let boundCount ← getUvarint
  let bounds ← getFloats boundCount
  let pointCount ← getUvarint
  getPoints bounds 0 0 (List.replicate boundCount 0) pointCount

def getRuns : Nat → Reading (List Point)
  | 0 => return []
  | runs + 1 => do
    let points ← getRun
    return points ++ (← getRuns runs)

def decode (bytes : Bytes) : Except String (List Point) :=
  match (getUvarint >>= getRuns).exec { bytes := bytes } with
  | (.error e, _) => .error e
  | (.ok points, cursor) =>
    if cursor.pos ≠ cursor.bytes.length then .error "histogram chunk has trailing bytes" else .ok points

end Signy.HistogramChunk
