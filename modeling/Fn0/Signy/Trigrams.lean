/-
Line filters (signy/src/bloom.rs): the trigrams of a row group's lines in a bitmap, a filter built from it, and the
lookup of a needle.

A `str` is the list of its scalar values. Unicode's case tables are a parameter (`CaseTables`), of which only the
mappings of ASCII and of the capital sigma are assumed. Lines are lowercased scalar by scalar, needles by
`str::to_lowercase`, which writes a capital sigma at the end of a word as a final one. The sizing of a filter, computed
in floats, is a parameter as well (`Sizing`).
-/
import Fn0.Signy.Bloom

namespace Signy

/-- A `str`. -/
abbrev Text : Type := List Char

def capitalSigma : Char := Char.ofNat 0x3A3
def smallSigma : Char := Char.ofNat 0x3C3
def finalSigma : Char := Char.ofNat 0x3C2

/-- Unicode's tables: `char::to_lowercase` and the properties `Cased` and `Case_Ignorable`. -/
structure CaseTables where
  lower : Char → List Char
  cased : Char → Bool
  caseIgnorable : Char → Bool
  lower_ascii : ∀ c : Char, c.toNat < 128 → lower c = [c.toLower]
  lower_sigma : lower capitalSigma = [smallSigma]

def utf8 (s : Text) : Bytes := s.flatMap String.utf8EncodeChar

/-- `[T]::windows(3)`. -/
def windows3 : Bytes → List Bytes
  | a :: b :: c :: rest => [a, b, c] :: windows3 (b :: c :: rest)
  | _ => []

section Tables

variable (T : CaseTables)

/-! ## Lowercasing -/

/-- `u8::make_ascii_lowercase`. -/
def asciiLower (byte : UInt8) : UInt8 := if 65 ≤ byte ∧ byte ≤ 90 then byte + 32 else byte

def lowercaseInto (s : Text) : Bytes :=
  if s.all (fun c => c.toNat < 128) then (utf8 s).map asciiLower else utf8 (s.flatMap T.lower)

/-- `case_ignorable_then_cased`. -/
def caseIgnorableThenCased (s : Text) : Bool :=
  match s.dropWhile T.caseIgnorable with
  | [] => false
  | c :: _ => T.cased c

/-- `map_uppercase_sigma`, with what is before the sigma backwards. -/
def mapUppercaseSigma (before after : Text) : Char :=
  if caseIgnorableThenCased T before && !caseIgnorableThenCased T after then finalSigma else smallSigma

/-- `str::to_lowercase`, from a place on. -/
def toLowercaseFrom (before : Text) : Text → Text
  | [] => []
  | c :: after =>
    (if c = capitalSigma then [mapUppercaseSigma T before after] else T.lower c) ++ toLowercaseFrom (c :: before) after

def toLowercase (s : Text) : Text := toLowercaseFrom T [] s

def trigrams (s : Text) : List Bytes := windows3 (utf8 (toLowercase T s))

/-! ## The bitmap -/

def trigramIndex (trigram : Bytes) : Nat :=
  (trigram.getD 0 0).toNat <<< 16 ||| (trigram.getD 1 0).toNat <<< 8 ||| (trigram.getD 2 0).toNat

def trigramOf (index : Nat) : Bytes := [UInt8.ofNat (index >>> 16), UInt8.ofNat (index >>> 8), UInt8.ofNat index]

/-- One bit per possible trigram, and how many are set. -/
structure TrigramSet where
  words : Nat → BitVec 64 := fun _ => 0
  len : Nat := 0

def TrigramSet.addTrigram (set : TrigramSet) (window : Bytes) : TrigramSet :=
  let index := trigramIndex window
  let bit := 1#64 <<< (index &&& 63)
  if set.words (index >>> 6) &&& bit = 0#64 then
    { words := Function.update set.words (index >>> 6) (set.words (index >>> 6) ||| bit), len := set.len + 1 }
  else set

def TrigramSet.addLine (set : TrigramSet) (line : Text) : TrigramSet :=
  (windows3 (lowercaseInto T line)).foldl TrigramSet.addTrigram set

/-- The set bits of a word, lowest first. A word has 64 of them at most. -/
def drain : Nat → BitVec 64 → List Nat
  | 0, _ => []
  | fuel + 1, bits => if bits = 0#64 then [] else bits.ctz.toNat :: drain fuel (bits &&& (bits - 1#64))

def trigramWords : Nat := 2 ^ 18

/-- The trigrams of the bitmap, in ascending order. -/
def TrigramSet.items (set : TrigramSet) : List Bytes :=
  (List.range trigramWords).flatMap fun word =>
    (drain 64 (set.words word)).map fun position => trigramOf (word <<< 6 ||| position)

/-- `optimal_bits(n, LINE_TRIGRAM_FPP)` and `optimal_k` for it: bits in whole bytes, and a `u32` of them for as many
trigrams as there are. -/
structure Sizing where
  bits : Nat → Nat
  k : Nat → Nat
  bits_pos : ∀ n, 0 < bits n
  bits_mod : ∀ n, bits n % 8 = 0
  bits_lt : ∀ n ≤ 2 ^ 24, bits n < 2 ^ 32
  k_pos : ∀ n, 0 < k n
  k_le : ∀ n, k n ≤ 16

variable (S : Sizing) (hash : Bytes → UInt64 × UInt64)

def withCapacity (items : Nat) : BloomFilter :=
  BloomFilter.new (S.bits items) (S.k items) (S.bits_pos items) (S.bits_mod items)
    (lt_of_le_of_lt (S.k_le items) (by decide))

def TrigramSet.finish (set : TrigramSet) : BloomFilter :=
  set.items.foldl (BloomFilter.insert hash) (withCapacity S (max set.len 1))

def lineBloom (lines : List Text) : BloomFilter := (lines.foldl (TrigramSet.addLine T) {}).finish S hash

def mightContainSubstr (b : BloomFilter) (needle : Text) : Bool :=
  if (trigrams T needle).isEmpty then true else (trigrams T needle).all (b.contains hash)

end Tables

end Signy
