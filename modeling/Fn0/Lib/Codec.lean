/-
Readers and writers of byte strings, and what it takes for a reader to be the inverse of a writer.

A writer appends to the bytes written so far; a reader takes bytes from the front of the bytes left. Both
are computations of `Eff`. The two directions are kept apart, each with its rules for sequencing:

`Mirrors w r a`: whatever `w` appends, `r` takes off again and returns `a`, whatever follows.
`Decodes r Q`: what `r` accepts is a text `bs` for the value it returns, with `Q` about the two; a reader
is canonical when `Q` says that the writer of the value writes `bs`. A reader never panics.

`Sized w P n`: the writer succeeds exactly when `P` holds, and then appends `n` bytes.
-/
import Mathlib
import Fn0.Lib.Bytes
import Fn0.Lib.Eff

/-! ## Big-endian numbers -/

namespace Bytes

/-- `from_be_bytes`. -/
def toNatBE (bytes : Bytes) : Nat := toNatLE bytes.reverse

/-- `to_be_bytes`: the low `width` bytes of a number, most significant first. -/
def ofNatBE (width n : Nat) : Bytes := (ofNatLE width n).reverse

@[simp] theorem length_ofNatBE (width n : Nat) : (ofNatBE width n).length = width := by
  simp [ofNatBE]

theorem toNatLE_ofNatLE {width n : Nat} (h : n < 256 ^ width) : toNatLE (ofNatLE width n) = n := by
  induction width generalizing n with
  | zero => simp at h; simp [ofNatLE, toNatLE, h]
  | succ width ih =>
    have hdiv : n / 256 < 256 ^ width := by
      rw [Nat.div_lt_iff_lt_mul (by decide)]
      rwa [Nat.pow_succ] at h
    simp only [ofNatLE, toNatLE, ih hdiv, UInt8.toNat_ofNat']
    omega

theorem ofNatLE_toNatLE (bytes : Bytes) : ofNatLE bytes.length (toNatLE bytes) = bytes := by
  induction bytes with
  | nil => rfl
  | cons b rest ih =>
    have hb := b.toNat_lt
    have hlow : UInt8.ofNat (b.toNat + 256 * toNatLE rest) = b := by
      apply UInt8.toNat_inj.mp
      rw [UInt8.toNat_ofNat']
      omega
    have hhigh : (b.toNat + 256 * toNatLE rest) / 256 = toNatLE rest := by omega
    simp only [toNatLE, List.length_cons, ofNatLE, hlow, hhigh, ih]

theorem toNatLE_lt (bytes : Bytes) : toNatLE bytes < 256 ^ bytes.length := by
  induction bytes with
  | nil => simp [toNatLE]
  | cons b rest ih =>
    have hb := b.toNat_lt
    simp only [toNatLE, List.length_cons, Nat.pow_succ]
    omega

theorem toNatBE_ofNatBE {width n : Nat} (h : n < 256 ^ width) : toNatBE (ofNatBE width n) = n := by
  simp [toNatBE, ofNatBE, toNatLE_ofNatLE h]

theorem ofNatBE_toNatBE {width : Nat} {bytes : Bytes} (h : bytes.length = width) :
    ofNatBE width (toNatBE bytes) = bytes := by
  have := ofNatLE_toNatLE bytes.reverse
  rw [List.length_reverse, h] at this
  simp [toNatBE, ofNatBE, this]

theorem toNatBE_lt {width : Nat} {bytes : Bytes} (h : bytes.length = width) : toNatBE bytes < 256 ^ width := by
  have := toNatLE_lt bytes.reverse
  rwa [List.length_reverse, h] at this

/-! ## UTF-8 -/

/-- The bytes of a string: `str::as_bytes`. -/
def ofString (s : String) : Bytes := s.toByteArray.data.toList

/-- `String::from_utf8`. -/
def toString? (bytes : Bytes) : Option String := String.fromUTF8? ⟨bytes.toArray⟩

@[simp] theorem toString?_ofString (s : String) : toString? (ofString s) = some s := by
  have hvalid : (⟨(ofString s).toArray⟩ : ByteArray).IsValidUTF8 := s.isValidUTF8
  simp only [toString?, String.fromUTF8?, hvalid, dif_pos]
  rfl

theorem ofString_of_toString? {bytes : Bytes} {s : String} (h : toString? bytes = some s) :
    ofString s = bytes := by
  simp only [toString?, String.fromUTF8?] at h
  split at h
  · cases h; simp [ofString, String.fromUTF8]
  · cases h

theorem length_le_utf8Len (cs : List Char) : cs.length ≤ String.utf8Len cs := by
  induction cs with
  | nil => simp
  | cons c cs ih =>
    have := c.utf8Size_pos
    simp only [List.length_cons, String.utf8Len_cons]
    omega

/-- A string has at most as many characters as bytes. -/
theorem length_le_ofString (s : String) : s.length ≤ (ofString s).length := by
  have h := length_le_utf8Len s.toList
  rw [← String.utf8ByteSize_ofList, String.ofList_toList, String.length_toList] at h
  exact h

end Bytes

/-! ## Computations that may panic -/

/-- What ends a computation early: an error it returns, or a panic. -/
inductive Fault (ε : Type) where
  | err (e : ε)
  | panic
deriving DecidableEq, Repr

namespace Codec

variable {ε δ α β : Type}

/-- Indexing a slice, `bytes[i]`, which panics outside it. -/
def index (bytes : Bytes) (i : Nat) : Except (Fault ε) UInt8 :=
  match bytes[i]? with
  | some byte => .ok byte
  | none => .error .panic

/-- Slicing `bytes[..end]`, which panics behind the end. -/
def sliceTo (bytes : Bytes) (stop : Nat) : Except (Fault ε) Bytes :=
  if stop ≤ bytes.length then .ok (bytes.take stop) else .error .panic

/-- Slicing `bytes[start..]`. -/
def sliceFrom (bytes : Bytes) (start : Nat) : Except (Fault ε) Bytes :=
  if start ≤ bytes.length then .ok (bytes.drop start) else .error .panic

/-- The `?` operator on a result that carries no panic. -/
def lift (r : Except ε α) : Except (Fault ε) α := r.mapError .err

@[simp] theorem lift_ok (a : α) : lift (.ok a : Except ε α) = .ok a := rfl

@[simp] theorem lift_error (e : ε) : lift (.error e : Except ε α) = .error (.err e) := rfl

theorem lift_eq_ok {r : Except ε α} {a : α} : lift r = .ok a ↔ r = .ok a := by
  cases r <;> simp

/-! ## Writers -/

/-- A writer; the state is what has been written. -/
abbrev Writer (δ α : Type) : Type := Eff δ Bytes α

/-- The writer succeeds and appends `bs`. -/
def Writes (w : Writer δ Unit) (bs : Bytes) : Prop :=
  ∀ out, w.exec out = (.ok (), out ++ bs)

theorem Writes.bind {w : Writer δ Unit} {w' : Unit → Writer δ Unit} {bs bs' : Bytes} (h : Writes w bs)
    (h' : Writes (w' ()) bs') : Writes (w >>= w') (bs ++ bs') := by
  intro out
  rw [Eff.exec_bind_ok (h out), h' (out ++ bs), List.append_assoc]

theorem writes_pure : Writes (pure () : Writer δ Unit) [] := by
  intro out; simp

/-- A check in front of a writer, passed. -/
theorem Writes.checked {c : Except δ α} {w : α → Writer δ Unit} {bs : Bytes} {x : α} (hc : c = .ok x)
    (h : Writes (w x) bs) : Writes (Eff.ofExcept c >>= w) bs := by
  intro out
  rw [Eff.exec_ofExcept_bind, hc]
  exact h out

/-! ## When a writer succeeds, and how much it writes -/

/-- The writer succeeds exactly when `P` holds, and then appends `n` bytes. -/
def Sized (w : Writer δ Unit) (P : Prop) (n : Nat) : Prop :=
  ∀ out, Eff.Sat w out (fun _ out' => P ∧ out'.length = out.length + n) (fun _ _ => ¬ P)

theorem Writes.sized {w : Writer δ Unit} {bs : Bytes} (h : Writes w bs) : Sized w True bs.length :=
  fun out => Eff.sat_of_exec_ok (h out) ⟨trivial, List.length_append⟩

theorem Sized.congr {w : Writer δ Unit} {P Q : Prop} {n m : Nat} (h : Sized w P n) (hPQ : P ↔ Q) (hnm : n = m) :
    Sized w Q m := by
  subst hnm
  rwa [propext hPQ] at h

theorem Sized.bind {w : Writer δ Unit} {w' : Unit → Writer δ Unit} {P Q : Prop} {n m : Nat} (h : Sized w P n)
    (h' : Sized (w' ()) Q m) : Sized (w >>= w') (P ∧ Q) (n + m) := by
  intro out
  refine (h out).bind (fun _ mid ⟨hp, hmid⟩ => ?_) (fun _ _ hp hpq => hp hpq.1)
  refine (h' mid).mono (fun _ out' ⟨hq, hout⟩ => ⟨⟨hp, hq⟩, ?_⟩) (fun _ _ hq hpq => hq hpq.2)
  rw [hout, hmid, Nat.add_assoc]

/-- A check in front of a writer. -/
theorem Sized.checked {c : Except δ α} {w : α → Writer δ Unit} {P Q : Prop} {n : Nat} (hc : (∃ x, c = .ok x) ↔ P)
    (h : ∀ x, c = .ok x → Sized (w x) Q n) : Sized (Eff.ofExcept c >>= w) (P ∧ Q) n := by
  intro out
  rw [Eff.sat_bind]
  rcases c with e | x
  · exact fun hpq => by obtain ⟨x, hx⟩ := hc.mpr hpq.1; cases hx
  · have hp : P := hc.mp ⟨x, rfl⟩
    exact (h x rfl out).mono (fun _ _ ⟨hq, hout⟩ => ⟨⟨hp, hq⟩, hout⟩) (fun _ _ hq hpq => hq hpq.2)

/-! ## A reader that mirrors a writer -/

/-- A reader; the state is what is left of the input. -/
abbrev Reader (ε α : Type) : Type := Eff (Fault ε) Bytes α

/-- In front of anything, the reader takes exactly `bs` and returns `a`. -/
def Reads (r : Reader ε α) (bs : Bytes) (a : α) : Prop :=
  ∀ rest, r.exec (bs ++ rest) = (.ok a, rest)

theorem reads_pure (a : α) : Reads (pure a : Reader ε α) [] a := by
  intro rest; simp

theorem Reads.bind {r : Reader ε α} {k : α → Reader ε β} {bs bs' : Bytes} {a : α} {b : β}
    (h : Reads r bs a) (h' : Reads (k a) bs' b) : Reads (r >>= k) (bs ++ bs') b := by
  intro rest
  rw [List.append_assoc, Eff.exec_bind_ok (h _), h' rest]

theorem reads_check {c : Except ε β} {k : β → Reader ε α} {x : β} {bs : Bytes} {a : α} (hc : c = .ok x)
    (h : Reads (k x) bs a) : Reads (Eff.ofExcept (lift c) >>= k) bs a := by
  intro rest
  rw [Eff.exec_ofExcept_bind, hc]
  exact h rest

/-- What the writer appends, if it succeeds, the reader reads back as `a`. -/
def Mirrors (w : Writer δ Unit) (r : Reader ε α) (a : α) : Prop :=
  ∀ out out', w.exec out = (.ok (), out') → ∃ bs, out' = out ++ bs ∧ Reads r bs a

theorem mirrors_pure (a : α) : Mirrors (pure () : Writer δ Unit) (pure a : Reader ε α) a := by
  intro out out' h
  cases h
  exact ⟨[], by simp, reads_pure a⟩

theorem Writes.mirrors {w : Writer δ Unit} {r : Reader ε α} {bs : Bytes} {a : α} (hw : Writes w bs)
    (hr : Reads r bs a) : Mirrors w r a := by
  intro out out' h
  rw [hw out] at h
  cases h
  exact ⟨bs, rfl, hr⟩

theorem Mirrors.bind {w : Writer δ Unit} {w' : Unit → Writer δ Unit} {r : Reader ε α} {k : α → Reader ε β} {a : α}
    {b : β} (h : Mirrors w r a) (h' : Mirrors (w' ()) (k a) b) : Mirrors (w >>= w') (r >>= k) b := by
  intro out out' hex
  rcases hw : w.exec out with ⟨e | _, mid⟩
  · rw [Eff.exec_bind_error hw] at hex; cases hex
  · rw [Eff.exec_bind_ok hw] at hex
    obtain ⟨bs, rfl, hr⟩ := h out mid hw
    obtain ⟨bs', rfl, hk⟩ := h' _ out' hex
    exact ⟨bs ++ bs', by rw [List.append_assoc], hr.bind hk⟩

/-- A reader that goes on without taking more. -/
theorem Mirrors.andThen {w : Writer δ Unit} {r : Reader ε α} {k : α → Reader ε β} {a : α} {b : β}
    (h : Mirrors w r a) (hk : Reads (k a) [] b) : Mirrors w (r >>= k) b := by
  intro out out' hex
  obtain ⟨bs, rfl, hr⟩ := h out out' hex
  exact ⟨bs, rfl, by simpa using hr.bind hk⟩

theorem Mirrors.map {w : Writer δ Unit} {r : Reader ε α} {a : α} (h : Mirrors w r a) (f : α → β) :
    Mirrors w (r >>= fun a => pure (f a)) (f a) :=
  h.andThen (reads_pure (f a))

/-- A check in front of the writer: it has passed when the writer succeeds. -/
theorem Mirrors.checked {c : Except δ β} {w : β → Writer δ Unit} {r : Reader ε α} {a : α}
    (h : ∀ x, c = .ok x → Mirrors (w x) r a) : Mirrors (Eff.ofExcept c >>= w) r a := by
  intro out out' hex
  rw [Eff.exec_ofExcept_bind] at hex
  rcases c with e | x
  · cases hex
  · exact h x rfl out out' hex

/-- A check of the reader that passes. -/
theorem Mirrors.recheck {w : Writer δ Unit} {c : Except ε β} {k : β → Reader ε α} {x : β} {a : α}
    (hc : c = .ok x) (h : Mirrors w (k x) a) : Mirrors w (Eff.ofExcept (lift c) >>= k) a := by
  intro out out' hex
  obtain ⟨bs, rfl, hr⟩ := h out out' hex
  exact ⟨bs, rfl, reads_check hc hr⟩

/-- `for _ in 0..count { items.push(read()) }`. -/
def readMany (read : Reader ε α) : Nat → Reader ε (List α)
  | 0 => pure []
  | count + 1 => do
    let item ← read
    let items ← readMany read count
    return item :: items

theorem mirrors_forM {w : α → Writer δ Unit} {r : Reader ε α} {xs : List α}
    (h : ∀ x ∈ xs, Mirrors (w x) r x) : Mirrors (xs.forM w) (readMany r xs.length) xs := by
  induction xs with
  | nil => exact mirrors_pure []
  | cons x xs ih =>
    rw [List.forall_mem_cons] at h
    exact h.1.bind ((ih h.2).map _)

/-! ## What a reader accepts -/

/-- The reader never panics, and what it takes off for a value it returns is related to it by `Q`. -/
def Decodes (r : Reader ε α) (Q : α → Bytes → Prop) : Prop :=
  ∀ input, Eff.Sat r input (fun a rest => ∃ bs, input = bs ++ rest ∧ Q a bs) (fun e _ => e ≠ .panic)

theorem decodes_pure {a : α} {Q : α → Bytes → Prop} (h : Q a []) : Decodes (pure a : Reader ε α) Q :=
  fun _ => ⟨[], rfl, h⟩

theorem decodes_throw {e : ε} {Q : α → Bytes → Prop} : Decodes (throw (.err e) : Reader ε α) Q :=
  fun _ h => by cases h

theorem Decodes.mono {r : Reader ε α} {Q R : α → Bytes → Prop} (h : Decodes r Q)
    (hQ : ∀ a bs, Q a bs → R a bs) : Decodes r R :=
  fun input => (h input).mono (fun a _ ⟨bs, hin, hq⟩ => ⟨bs, hin, hQ a bs hq⟩) (fun _ _ he => he)

theorem Decodes.bind {r : Reader ε α} {k : α → Reader ε β} {Q : α → Bytes → Prop} {R : β → Bytes → Prop}
    (h : Decodes r Q) (hk : ∀ a, Decodes (k a) (fun b bs' => ∀ bs, Q a bs → R b (bs ++ bs'))) :
    Decodes (r >>= k) R := by
  intro input
  refine (h input).bind ?_ (fun _ _ he => he)
  rintro a rest ⟨bs, rfl, hq⟩
  refine (hk a rest).mono ?_ (fun _ _ he => he)
  rintro b rest' ⟨bs', rfl, hr⟩
  exact ⟨bs ++ bs', by rw [List.append_assoc], hr bs hq⟩

theorem decodes_check {c : Except ε α} {r : α → Reader ε β} {Q : β → Bytes → Prop}
    (h : ∀ a, c = .ok a → Decodes (r a) Q) : Decodes (Eff.ofExcept (lift c) >>= r) Q := by
  intro input
  rw [Eff.sat_bind]
  rcases c with e | a
  · intro he; cases he
  · exact h a rfl input

theorem decodes_readMany {r : Reader ε α} {w : α → Writer δ Unit} {P : α → Prop}
    (h : Decodes r (fun a bs => Writes (w a) bs ∧ P a)) (count : Nat) :
    Decodes (readMany r count)
      (fun xs bs => Writes (xs.forM w) bs ∧ xs.length = count ∧ ∀ x ∈ xs, P x) := by
  induction count with
  | zero => exact decodes_pure ⟨writes_pure, rfl, by simp⟩
  | succ count ih =>
    refine h.bind fun x => ih.bind fun xs => decodes_pure ?_
    rintro tail ⟨hws, hlen, hps⟩ head ⟨hw, hp⟩
    refine ⟨?_, by simp [hlen], ?_⟩
    · rw [List.append_nil]
      exact hw.bind hws
    · simpa using ⟨hp, hps⟩

theorem Decodes.of_exec {r : Reader ε α} {Q : α → Bytes → Prop} {input rest : Bytes} {a : α}
    (h : Decodes r Q) (hr : r.exec input = (.ok a, rest)) : ∃ bs, input = bs ++ rest ∧ Q a bs :=
  (h input).of_ok hr

theorem Decodes.ne_panic {r : Reader ε α} {Q : α → Bytes → Prop} {input rest : Bytes} {e : Fault ε}
    (h : Decodes r Q) (hr : r.exec input = (.error e, rest)) : e ≠ .panic :=
  (h input).of_error hr

end Codec
