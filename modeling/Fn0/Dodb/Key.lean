/-
Document keys and their canonical byte encoding (crates/dodb-core/src/key.rs).

A key is a pair of byte strings; the encoding writes the two components one after another with every
zero byte escaped as `00 FF` and `00 00` as the terminator. The tree compares encoded keys bytewise, so
what the rest of the development needs is proved here once: decoding inverts encoding on both sides, and
encoding is an order embedding.
-/
import Mathlib
import Fn0.Lib.Bytes
import Fn0.Lib.Eff

namespace Dodb

abbrev PrimaryKey : Type := Bytes

abbrev SortKey : Type := Bytes

structure DocumentKey where
  pk : PrimaryKey
  sk : SortKey
deriving DecidableEq, Repr

inductive KeyCodecError where
  | truncatedEscape (offset : Nat)
  | invalidEscape (offset : Nat) (byte : UInt8)
  | missingComponent (offset : Nat)
  | trailingBytes (offset : Nat)
deriving DecidableEq, Repr

/-! ## The codec -/

def encodeComponent (bytes : Bytes) : Bytes :=
  bytes.flatMap (fun byte => if byte = 0 then [0, 0xff] else [byte]) ++ [0, 0]

def encodedComponentLen (bytes : Bytes) : Nat :=
  bytes.length + (bytes.filter (· = 0)).length + 2

/-- The loop of `decode_component` over the bytes left from `offset`. Besides the component and the
offset behind it, it returns the bytes left there. -/
def decodeComponentLoop : Bytes → Nat → Bytes → Except KeyCodecError (Bytes × Nat × Bytes)
  | [], offset, _ => .error (.truncatedEscape offset)
  | byte :: rest, offset, bytes =>
    if byte ≠ 0 then
      decodeComponentLoop rest (offset + 1) (bytes ++ [byte])
    else
      match rest with
      | [] => .error (.truncatedEscape offset)
      | escape :: rest =>
        if escape = 0 then .ok (bytes, offset + 2, rest)
        else if escape = 0xff then decodeComponentLoop rest (offset + 2) (bytes ++ [0])
        else .error (.invalidEscape offset escape)

def decodeComponent (encoded : Bytes) (start : Nat) : Except KeyCodecError (Bytes × Nat × Bytes) :=
  if encoded = [] then .error (.missingComponent start) else decodeComponentLoop encoded start []

namespace DocumentKey

def encode (key : DocumentKey) : Bytes := encodeComponent key.pk ++ encodeComponent key.sk

def encodedLen (key : DocumentKey) : Nat := encodedComponentLen key.pk + encodedComponentLen key.sk

def decode (encoded : Bytes) : Except KeyCodecError DocumentKey := do
  let (pk, next, rest) ← decodeComponent encoded 0
  let (sk, stop, rest) ← decodeComponent rest next
  if rest ≠ [] then throw (.trailingBytes stop)
  return { pk, sk }

/-- `derive(Ord)`: by primary key, then by sort key. -/
instance : LinearOrder DocumentKey :=
  LinearOrder.lift' (fun key => toLex (key.pk, key.sk)) (by
    rintro ⟨pk, sk⟩ ⟨pk', sk'⟩ h
    simpa using h)

instance : Std.TransCmp (compare : DocumentKey → DocumentKey → Ordering) := inferInstance

theorem lt_iff {a b : DocumentKey} : a < b ↔ a.pk < b.pk ∨ a.pk = b.pk ∧ a.sk < b.sk :=
  Prod.lex_def

end DocumentKey

/-! ## Decoding inverts encoding -/

@[simp] theorem encodeComponent_nil : encodeComponent [] = [0, 0] := rfl

theorem encodeComponent_cons_zero (bytes : Bytes) :
    encodeComponent (0 :: bytes) = 0 :: 0xff :: encodeComponent bytes := by
  simp [encodeComponent]

theorem encodeComponent_cons {byte : UInt8} (h : byte ≠ 0) (bytes : Bytes) :
    encodeComponent (byte :: bytes) = byte :: encodeComponent bytes := by
  simp [encodeComponent, h]

theorem encodeComponent_ne_nil (bytes : Bytes) : encodeComponent bytes ≠ [] := by
  simp [encodeComponent]

theorem decodeComponentLoop_cons {byte : UInt8} (h : byte ≠ 0) (rest : Bytes) (offset : Nat) (acc : Bytes) :
    decodeComponentLoop (byte :: rest) offset acc = decodeComponentLoop rest (offset + 1) (acc ++ [byte]) := by
  cases rest <;> simp [decodeComponentLoop, h]

theorem decodeComponentLoop_encode (bytes : Bytes) :
    ∀ (offset : Nat) (acc rest : Bytes), decodeComponentLoop (encodeComponent bytes ++ rest) offset acc =
      .ok (acc ++ bytes, offset + (encodeComponent bytes).length, rest) := by
  induction bytes with
  | nil => intro offset acc rest; simp [decodeComponentLoop]
  | cons byte bytes ih =>
    intro offset acc rest
    by_cases h : byte = 0
    · subst h
      rw [encodeComponent_cons_zero]
      simp only [List.cons_append, decodeComponentLoop, ih]
      simp [Nat.add_comm, Nat.add_left_comm]
    · rw [encodeComponent_cons h]
      simp only [List.cons_append, decodeComponentLoop_cons h, ih]
      simp [Nat.add_comm, Nat.add_left_comm]

theorem decodeComponent_encode (bytes rest : Bytes) (start : Nat) :
    decodeComponent (encodeComponent bytes ++ rest) start =
      .ok (bytes, start + (encodeComponent bytes).length, rest) := by
  simp [decodeComponent, encodeComponent_ne_nil, decodeComponentLoop_encode]

@[simp] theorem DocumentKey.decode_encode (key : DocumentKey) :
    DocumentKey.decode key.encode = .ok key := by
  have hsk := decodeComponent_encode key.sk [] (0 + (encodeComponent key.pk).length)
  rw [List.append_nil] at hsk
  simp only [DocumentKey.decode, DocumentKey.encode, decodeComponent_encode, bind, Except.bind, hsk]
  rfl

theorem decodeComponentLoop_sound {encoded : Bytes} {offset : Nat} {acc bytes : Bytes} {stop : Nat}
    {rest : Bytes} (h : decodeComponentLoop encoded offset acc = .ok (bytes, stop, rest)) :
    ∃ component, bytes = acc ++ component ∧ encoded = encodeComponent component ++ rest := by
  fun_induction decodeComponentLoop encoded offset acc with
  | case1 => cases h
  | case2 byte tail offset acc hne ih =>
    obtain ⟨component, hb, he⟩ := ih h
    exact ⟨byte :: component, by simp [hb], by rw [encodeComponent_cons hne, he, List.cons_append]⟩
  | case3 => cases h
  | case4 byte offset acc hzero tail =>
    cases h
    have : byte = 0 := by simpa using hzero
    exact ⟨[], by simp, by simp [this]⟩
  | case5 byte offset acc hzero tail _ ih =>
    obtain ⟨component, hb, he⟩ := ih h
    have : byte = 0 := by simpa using hzero
    exact ⟨0 :: component, by simp [hb], by rw [encodeComponent_cons_zero, he, this]; simp⟩
  | case6 => cases h

theorem decodeComponent_sound {encoded bytes rest : Bytes} {start stop : Nat}
    (h : decodeComponent encoded start = .ok (bytes, stop, rest)) :
    encoded = encodeComponent bytes ++ rest := by
  unfold decodeComponent at h
  split at h
  · cases h
  · obtain ⟨component, hb, he⟩ := decodeComponentLoop_sound h
    simpa [hb] using he

theorem DocumentKey.encode_of_decode {encoded : Bytes} {key : DocumentKey}
    (h : DocumentKey.decode encoded = .ok key) : key.encode = encoded := by
  unfold DocumentKey.decode at h
  obtain ⟨⟨pk, next, rest⟩, hpk, h⟩ := Except.bind_eq_ok.mp h
  obtain ⟨⟨sk, stop, last⟩, hsk, h⟩ := Except.bind_eq_ok.mp h
  by_cases hl : last = []
  · simp only [hl, ne_eq, not_true_eq_false, if_false] at h
    cases h
    simp [DocumentKey.encode, decodeComponent_sound hpk, decodeComponent_sound hsk, hl]
  · simp only [ne_eq, hl, not_false_eq_true, if_true] at h
    cases h

/-- The canonical keys are exactly the encodings of document keys. -/
theorem DocumentKey.decode_eq_ok_iff {encoded : Bytes} {key : DocumentKey} :
    DocumentKey.decode encoded = .ok key ↔ encoded = key.encode :=
  ⟨fun h => (encode_of_decode h).symm, fun h => h ▸ decode_encode key⟩

theorem DocumentKey.encode_injective : Function.Injective DocumentKey.encode := by
  intro a b h
  have := DocumentKey.decode_encode a
  rw [h, DocumentKey.decode_encode] at this
  cases this; rfl

theorem encodedComponentLen_eq (bytes : Bytes) : (encodeComponent bytes).length = encodedComponentLen bytes := by
  induction bytes with
  | nil => rfl
  | cons byte bytes ih =>
    by_cases h : byte = 0
    · subst h
      rw [encodeComponent_cons_zero]
      simp only [encodedComponentLen, List.length_cons] at ih ⊢
      simp [ih]; omega
    · rw [encodeComponent_cons h]
      simp only [encodedComponentLen, List.length_cons] at ih ⊢
      simp [ih, h]; omega

theorem DocumentKey.encode_length (key : DocumentKey) : key.encode.length = key.encodedLen := by
  simp [DocumentKey.encode, DocumentKey.encodedLen, encodedComponentLen_eq]

/-! ## Encoding preserves the order -/

/-- Two components behind which arbitrary bytes follow compare as the components do, and by what follows
only when the components are equal. -/
theorem encodeComponent_append_lt (a b r r' : Bytes) :
    encodeComponent a ++ r < encodeComponent b ++ r' ↔ a < b ∨ a = b ∧ r < r' := by
  induction a generalizing b with
  | nil =>
    cases b with
    | nil => simp
    | cons y b =>
      by_cases hy : y = 0
      · subst hy
        simp [encodeComponent_cons_zero, List.cons_lt_cons_iff]
      · simp [encodeComponent_cons hy, List.cons_lt_cons_iff, Bytes.pos_of_ne_zero hy]
  | cons x a ih =>
    cases b with
    | nil =>
      by_cases hx : x = 0
      · subst hx
        simp [encodeComponent_cons_zero, List.cons_lt_cons_iff]
      · simp [encodeComponent_cons hx, List.cons_lt_cons_iff, hx]
    | cons y b =>
      by_cases hx : x = 0 <;> by_cases hy : y = 0
      · subst hx hy
        simp [encodeComponent_cons_zero, ih]
      · subst hx
        have : ¬ (0 : UInt8) = y := fun h => hy h.symm
        simp [encodeComponent_cons_zero, encodeComponent_cons hy, List.cons_lt_cons_iff,
          Bytes.pos_of_ne_zero hy]
      · subst hy
        simp [encodeComponent_cons_zero, encodeComponent_cons hx, List.cons_lt_cons_iff, hx]
      · simp only [encodeComponent_cons hx, encodeComponent_cons hy, List.cons_append,
          List.cons_lt_cons_iff, ih, List.cons.injEq]
        tauto

theorem DocumentKey.encode_lt_encode {a b : DocumentKey} : a.encode < b.encode ↔ a < b := by
  have h := encodeComponent_append_lt a.sk b.sk [] []
  simp only [List.append_nil, lt_irrefl, and_false, or_false] at h
  rw [DocumentKey.lt_iff, DocumentKey.encode, DocumentKey.encode, encodeComponent_append_lt, h]

/-- **The encoding is an order isomorphism onto what `decode` accepts.** Decoding gives every key back and
`encodedLen` is the length written; two encodings compare bytewise as the keys do, by primary key and then
by sort key; and a byte string is accepted with a key exactly when it is that key's encoding. -/
theorem DocumentKey.encode_order_isomorphism :
    (∀ key : DocumentKey, decode key.encode = .ok key ∧ key.encodedLen = key.encode.length) ∧
      (∀ a b : DocumentKey, (a.encode < b.encode ↔ a.pk < b.pk ∨ a.pk = b.pk ∧ a.sk < b.sk) ∧
        (a.encode = b.encode ↔ a.pk = b.pk ∧ a.sk = b.sk)) ∧
      ∀ (encoded : Bytes) (key : DocumentKey), decode encoded = .ok key ↔ encoded = key.encode := by
  refine ⟨fun key => ⟨decode_encode key, (encode_length key).symm⟩, fun a b => ⟨?_, ?_⟩,
    fun encoded key => decode_eq_ok_iff⟩
  · rw [encode_lt_encode, lt_iff]
  · rw [encode_injective.eq_iff, DocumentKey.mk.injEq]

end Dodb
