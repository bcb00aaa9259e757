/-
Which byte strings a Gorilla decoder can be given, and what a chunk is worth.

A record can open a window: 5 bits of leading zeros and 6 bits of width. The decoder subtracts both from 64 unchecked.
`windowsFit` scans a bit stream for windows alone and says whether every one of them fits a word; the decoder faults on
exactly the streams where one does not.
-/
import Fn0.Signy.GorillaChunk

namespace Signy.Gorilla

open BitStream

/-! ## Scanning for windows -/

/-- What a timestamp leaves of a stream; nothing, where the stream ends inside it. -/
def afterStamp : Nat → List Bool → List Bool
  | 0, bits => bits.drop 64
  | 1, bits => bits.drop 64
  | _, false :: bits => bits
  | _, true :: false :: bits => bits.drop 14
  | _, true :: true :: false :: bits => bits.drop 17
  | _, true :: true :: true :: false :: bits => bits.drop 20
  | _, true :: true :: true :: true :: bits => bits.drop 64
  | _, _ => []

/-- 64 is written as 0. -/
def widthOf (field : Nat) : Nat := if field = 0 then 64 else field

/-- The fields of a window at the front of a stream. -/
def leadingField (bits : List Bool) : Nat := numberOf (bits.take 5)
def significantField (bits : List Bool) : Nat := widthOf (numberOf ((bits.drop 5).take 6))

/-- One record: whether a window it opens fits, the width it leaves in force and what it leaves of the stream. -/
def scanRecord (index width : Nat) (bits : List Bool) : Bool × Nat × List Bool :=
  if index = 0 then (true, width, (afterStamp 0 bits).drop 64)
  else match afterStamp index bits with
    | false :: rest => (true, width, rest)
    | true :: false :: rest => (true, width, rest.drop width)
    | true :: true :: rest =>
      (rest.length < 11 || leadingField rest + significantField rest ≤ 64, significantField rest,
        rest.drop (11 + significantField rest))
    | _ => (true, width, [])

/-- No record opens a window wider than a word. -/
def windowsFit : Nat → Nat → Nat → List Bool → Bool
  | 0, _, _, _ => true
  | remaining + 1, index, width, bits =>
    (scanRecord index width bits).1 &&
      windowsFit remaining (index + 1) (scanRecord index width bits).2.1 (scanRecord index width bits).2.2

/-- The condition on a chunk: every window of the samples it counts fits. -/
def chunkFits (chunk : Bytes) : Bool :=
  windowsFit (Bytes.toNatLE (chunk.take 4)) 0 64 ((bytesBits chunk).drop 32)

/-- A stream that ends in a timestamp has no window behind it. -/
theorem scanRecord_of_nil {index : Nat} (width : Nat) {bits : List Bool} (h : afterStamp index bits = []) :
    (scanRecord index width bits).1 = true ∧ (scanRecord index width bits).2.2 = [] := by
  rw [scanRecord]
  split
  next hindex =>
    subst hindex
    rw [h]
    exact ⟨rfl, rfl⟩
  next =>
    rw [h]
    exact ⟨rfl, rfl⟩

theorem afterStamp_nil : ∀ index, afterStamp index [] = []
  | 0 => rfl
  | 1 => rfl
  | _ + 2 => rfl

theorem windowsFit_nil (remaining : Nat) : ∀ index width, windowsFit remaining index width [] = true := by
  induction remaining with
  | zero => exact fun _ _ => rfl
  | succ remaining ih =>
    intro index width
    obtain ⟨hfits, hrest⟩ := scanRecord_of_nil width (afterStamp_nil index)
    rw [windowsFit, hfits, hrest, ih]
    rfl

/-! ## The decoder along the scan -/

/-- Reading a field whose value does not matter here. -/
theorem sat_readBits_map {α : Type} (f : BitVec 64 → α) {count : Nat} {r : BitReader} {rest : List Bool}
    (hrest : r.left.drop count = rest) : Eff.Sat (readBits count >>= fun value => pure (f value)) r
      (fun _ r' => r'.left = rest) (fun e _ => Ends e ∧ rest = []) := by
  refine ((takes_readBits count).sat_drop r).bind ?_ ?_
  · rintro value r' ⟨-, -, hr'⟩
    exact hr'.trans hrest
  · rintro e r' ⟨he, hshort⟩
    exact ⟨he, hrest ▸ List.drop_eq_nil_of_le hshort.le⟩

/-- Reading a bit, by what is left. -/
theorem sat_readBit_bind {α : Type} {k : Bool → Reading α} {r : BitReader} {Q : α → BitReader → Prop}
    {E : Fault String → BitReader → Prop} (hend : r.left = [] → ∀ e r', Ends e → E e r')
    (hbit : ∀ bit r', r.left = bit :: r'.left → Eff.Sat (k bit) r' Q E) : Eff.Sat (readBit >>= k) r Q E := by
  refine (takes_readBit r).bind ?_ ?_
  · rintro bit r' ⟨used, hused, hr, rfl⟩
    obtain ⟨bit, rfl⟩ := List.length_eq_one_iff.mp hused
    exact hbit bit r' hr
  · rintro e r' ⟨he, hshort⟩
    exact hend (List.length_eq_zero_iff.mp (by omega)) e r' he

theorem sat_readDod (index : Nat) (r : BitReader) : Eff.Sat readDod r
    (fun _ r' => r'.left = afterStamp (index + 2) r.left) (fun e _ => Ends e ∧ afterStamp (index + 2) r.left = []) := by
  rw [readDod]
  refine sat_readBit_bind (fun h e _ he => ⟨he, by rw [h]; rfl⟩) fun bit r₁ hr => ?_
  rw [hr]
  cases bit with
  | false => exact rfl
  | true =>
    refine sat_readBit_bind (fun h e _ he => ⟨he, by rw [h]; rfl⟩) fun bit r₂ hr => ?_
    rw [hr]
    cases bit with
    | false => exact sat_readBits_map _ rfl
    | true =>
      refine sat_readBit_bind (fun h e _ he => ⟨he, by rw [h]; rfl⟩) fun bit r₃ hr => ?_
      rw [hr]
      cases bit with
      | false => exact sat_readBits_map _ rfl
      | true =>
        refine sat_readBit_bind (fun h e _ he => ⟨he, by rw [h]; rfl⟩) fun bit r₄ hr => ?_
        rw [hr]
        cases bit <;> exact sat_readBits_map _ rfl

theorem sat_nextTimestamp (d : Decoder) (index : Nat) (r : BitReader) : Eff.Sat (d.nextTimestamp index) r
    (fun _ r' => r'.left = afterStamp index r.left) (fun e _ => Ends e ∧ afterStamp index r.left = []) := by
  match index with
  | 0 => exact sat_readBits_map _ rfl
  | 1 => exact sat_readBits_map _ rfl
  | index + 2 => exact (sat_readDod index r).bind (fun _ _ h => h) (fun _ _ h => h)

theorem sat_readMeaningful {leading trailing : Nat} (hwindow : leading + trailing < 64) {r : BitReader}
    {rest : List Bool} (hrest : r.left.drop (64 - leading - trailing) = rest) :
    Eff.Sat (Decoder.readMeaningful (leading, trailing)) r (fun _ r' => r'.left = rest)
      (fun e _ => Ends e ∧ rest = []) := by
  have hshift (value : BitVec 64) : checkedShl value trailing = .ok (value <<< trailing) := if_pos (by omega)
  rw [Decoder.readMeaningful, checkedSub_ok (by omega : leading ≤ 64)]
  show Eff.Sat (Eff.ofExcept (checkedSub (64 - leading) trailing) >>= _) r _ _
  rw [checkedSub_ok (by omega : trailing ≤ 64 - leading)]
  show Eff.Sat (readBits (64 - leading - trailing) >>= _) r _ _
  simp only [hshift]
  exact sat_readBits_map (· <<< trailing) hrest

theorem toNat_ofNat_numberOf {bits : List Bool} (h : bits.length ≤ 64) :
    (BitVec.ofNat 64 (numberOf bits)).toNat = numberOf bits :=
  toNat_ofNat_of_lt ((numberOf_lt bits).trans_le (Nat.pow_le_pow_right (by decide) h))

/-- A window is read where it is whole, and subtracted unchecked. -/
theorem sat_readWindow (r : BitReader) : Eff.Sat Decoder.readWindow r
    (fun window r' => 11 ≤ r.left.length ∧ leadingField r.left + significantField r.left ≤ 64 ∧
      window.1 + window.2 < 64 ∧ 64 - window.1 - window.2 = significantField r.left ∧ r'.left = r.left.drop 11)
    (fun e _ => Ends e ∧ r.left.length < 11 ∨
      e = .panic ∧ 11 ≤ r.left.length ∧ ¬leadingField r.left + significantField r.left ≤ 64) := by
  rw [Decoder.readWindow]
  refine ((takes_readBits 5).sat_drop r).bind ?_ (fun e _ h => .inl ⟨h.1, by omega⟩)
  rintro _ r₁ ⟨rfl, hfive, hr₁⟩
  refine ((takes_readBits 6).sat_drop r₁).bind ?_ (fun e _ h => .inl ⟨h.1, by
    have hshort := h.2
    rw [hr₁, List.length_drop] at hshort
    omega⟩)
  rintro _ r₂ ⟨rfl, hsix, hr₂⟩
  rw [hr₁, List.length_drop] at hsix
  rw [hr₁] at hr₂
  dsimp only
  rw [toNat_ofNat_numberOf (by rw [List.length_take]; omega), toNat_ofNat_numberOf (by rw [List.length_take]; omega),
    hr₁]
  change Eff.Sat (Eff.ofExcept (checkedSub 64 (leadingField r.left)) >>= fun rest =>
    Eff.ofExcept (checkedSub rest (significantField r.left)) >>= fun trailing =>
      pure (leadingField r.left, trailing)) r₂ _ _
  have hleading : leadingField r.left < 2 ^ 5 :=
    (numberOf_lt _).trans_le (Nat.pow_le_pow_right (by decide) (by rw [List.length_take]; omega))
  have hpos : 0 < significantField r.left := by
    rw [significantField, widthOf]
    split <;> omega
  rw [checkedSub_ok (by omega)]
  change Eff.Sat (Eff.ofExcept (checkedSub (64 - leadingField r.left) (significantField r.left)) >>= _) r₂ _ _
  by_cases hfits : significantField r.left ≤ 64 - leadingField r.left
  · rw [checkedSub_ok hfits]
    refine ⟨by omega, by omega, ?_, ?_, ?_⟩
    · dsimp only
      omega
    · dsimp only
      omega
    · rw [hr₂, List.drop_drop]
  · rw [checkedSub, if_neg hfits]
    exact .inr ⟨rfl, by omega, by omega⟩

/-- How a record ends that yields no sample: with the stream, or at a window that does not fit. -/
def Stops (scan : Bool × Nat × List Bool) (e : Fault String) : Prop :=
  Ends e ∧ scan.1 = true ∧ scan.2.2 = [] ∨ e = .panic ∧ scan.1 = false

/-- A value is read as the scan says. -/
theorem sat_nextBits {d : Decoder} (hd : d.leading + d.trailing < 64) {index : Nat} {bits : List Bool} {r : BitReader}
    (hr : r.left = afterStamp index bits) : Eff.Sat (d.nextBits index) r
      (fun value r' => value.2.1 + value.2.2 < 64 ∧
        scanRecord index (64 - d.leading - d.trailing) bits = (true, 64 - value.2.1 - value.2.2, r'.left))
      (fun e _ => Stops (scanRecord index (64 - d.leading - d.trailing) bits) e) := by
  rw [Decoder.nextBits, scanRecord]
  by_cases hindex : index = 0
  · subst hindex
    simp only [if_pos]
    refine ((takes_readBits 64).sat_drop r).bind ?_ ?_
    · rintro value r' ⟨-, -, hr'⟩
      exact ⟨hd, by rw [hr', hr]⟩
    · rintro e r' ⟨he, hshort⟩
      exact .inl ⟨he, rfl, hr ▸ List.drop_eq_nil_of_le hshort.le⟩
  · simp only [if_neg hindex, ← hr]
    refine sat_readBit_bind (fun h e _ he => .inl ⟨he, by rw [h], by rw [h]⟩) fun bit r₁ hr₁ => ?_
    rw [hr₁]
    cases bit with
    | false => exact ⟨hd, rfl⟩
    | true =>
      refine sat_readBit_bind (fun h e _ he => .inl ⟨he, by rw [h], by rw [h]⟩) fun bit r₂ hr₂ => ?_
      rw [hr₂]
      cases bit with
      | false =>
        refine (sat_readMeaningful hd rfl).bind ?_ ?_
        · rintro value r' hr'
          exact ⟨hd, by rw [hr']⟩
        · rintro e r' ⟨he, hnil⟩
          exact .inl ⟨he, rfl, hnil⟩
      | true =>
        refine (sat_readWindow r₂).bind ?_ ?_
        · rintro window r₃ ⟨hlong, hfits, hwindow, hwidth, hr₃⟩
          have hscan : (decide (r₂.left.length < 11) || decide (leadingField r₂.left + significantField r₂.left ≤ 64)) =
              true := by simp [hfits]
          refine (sat_readMeaningful hwindow rfl).bind ?_ ?_
          · rintro value r' hr'
            refine ⟨hwindow, ?_⟩
            dsimp only
            rw [hr', hr₃, hwidth, List.drop_drop, hscan]
          · rintro e r' ⟨he, hnil⟩
            refine .inl ⟨he, hscan, ?_⟩
            rwa [hr₃, hwidth, List.drop_drop] at hnil
        · rintro e r' (⟨he, hshort⟩ | ⟨he, hlong, hwide⟩)
          · exact .inl ⟨he, by simp [hshort], List.drop_eq_nil_of_le (by omega)⟩
          · refine .inr ⟨he, ?_⟩
            have hnot : ¬r₂.left.length < 11 := by omega
            simp [hnot, hwide]

theorem sat_nextSample {d : Decoder} (hd : d.leading + d.trailing < 64) (index : Nat) (r : BitReader) :
    Eff.Sat (d.nextSample index) r
      (fun res r' => res.2.leading + res.2.trailing < 64 ∧ res.2.total = d.total ∧
        scanRecord index (64 - d.leading - d.trailing) r.left = (true, 64 - res.2.leading - res.2.trailing, r'.left))
      (fun e _ => Stops (scanRecord index (64 - d.leading - d.trailing) r.left) e) := by
  rw [Decoder.nextSample]
  refine (sat_nextTimestamp d index r).bind ?_ ?_
  · rintro ⟨ts, delta⟩ r₁ hr₁
    exact (sat_nextBits hd hr₁).bind (fun value r' ⟨hwindow, hscan⟩ => ⟨hwindow, rfl, hscan⟩) (fun _ _ h => h)
  · rintro e r' ⟨he, hnil⟩
    exact .inl ⟨he, scanRecord_of_nil _ hnil⟩

/-- A run of samples is read in its length, or stops, as the scan says. -/
theorem sat_collect (remaining : Nat) : ∀ {d : Decoder}, d.leading + d.trailing < 64 → remaining ≤ d.total →
    ∀ r : BitReader, Eff.Sat (d.collect remaining) r
      (fun read _ => read.length = remaining ∧
        windowsFit remaining (d.total - remaining) (64 - d.leading - d.trailing) r.left = true)
      (fun e _ => Ends e ∧ windowsFit remaining (d.total - remaining) (64 - d.leading - d.trailing) r.left = true ∨
        e = .panic ∧ windowsFit remaining (d.total - remaining) (64 - d.leading - d.trailing) r.left = false) := by
  induction remaining with
  | zero => exact fun _ _ _ => ⟨rfl, rfl⟩
  | succ remaining ih =>
    intro d hd hremaining r
    have hindex : d.total - (remaining + 1) + 1 = d.total - remaining := by omega
    rw [Decoder.collect, windowsFit]
    refine (sat_nextSample hd (d.total - (remaining + 1)) r).bind ?_ ?_
    · rintro ⟨s, d'⟩ r' ⟨hd', htotal, hscan⟩
      dsimp only at hd' htotal hscan ⊢
      rw [hscan, hindex, Bool.true_and, ← htotal]
      refine (ih hd' (by omega) r').bind ?_ (fun _ _ h => h)
      rintro read r'' ⟨hlength, hfits⟩
      exact ⟨congrArg (· + 1) hlength, hfits⟩
    · rintro e r' (⟨he, hfits, hnil⟩ | ⟨he, hwide⟩)
      · exact .inl ⟨he, by rw [hfits, hnil, windowsFit_nil]; rfl⟩
      · exact .inr ⟨he, by rw [hwide]; rfl⟩

/-! ## What a decoder returned, it read -/

theorem causal_readBit : Eff.Causal BitReader.left readBit := takes_readBit.causal

theorem causal_readBits (count : Nat) : Eff.Causal BitReader.left (readBits count) := (takes_readBits count).causal

/-- A field and a function of it. -/
theorem causal_readBits_map {α : Type} (count : Nat) (f : BitVec 64 → α) :
    Eff.Causal BitReader.left (readBits count >>= fun value => pure (f value)) :=
  (causal_readBits count).bind fun _ => Eff.causal_pure _

theorem causal_readDod : Eff.Causal BitReader.left readDod := by
  refine causal_readBit.bind fun bit => ?_
  cases bit with
  | false => exact Eff.causal_pure _
  | true =>
    refine causal_readBit.bind fun bit => ?_
    cases bit with
    | false => exact causal_readBits_map 14 _
    | true =>
      refine causal_readBit.bind fun bit => ?_
      cases bit with
      | false => exact causal_readBits_map 17 _
      | true =>
        refine causal_readBit.bind fun bit => ?_
        cases bit with
        | false => exact causal_readBits_map 20 _
        | true => exact causal_readBits_map 64 _

theorem causal_nextTimestamp (d : Decoder) (index : Nat) : Eff.Causal BitReader.left (d.nextTimestamp index) := by
  match index with
  | 0 => exact causal_readBits_map 64 _
  | 1 => exact causal_readBits_map 64 _
  | index + 2 => exact causal_readDod.bind fun _ => Eff.causal_pure _

theorem causal_readMeaningful (window : Nat × Nat) : Eff.Causal BitReader.left (Decoder.readMeaningful window) :=
  (Eff.causal_ofExcept _).bind fun _ => (Eff.causal_ofExcept _).bind fun significant =>
    (causal_readBits significant).bind fun _ => Eff.causal_ofExcept _

theorem causal_readWindow : Eff.Causal BitReader.left Decoder.readWindow :=
  (causal_readBits 5).bind fun _ => (causal_readBits 6).bind fun _ => (Eff.causal_ofExcept _).bind fun _ =>
    (Eff.causal_ofExcept _).bind fun _ => Eff.causal_pure _

theorem causal_nextBits (d : Decoder) (index : Nat) : Eff.Causal BitReader.left (d.nextBits index) := by
  rw [Decoder.nextBits]
  split
  · exact causal_readBits_map 64 _
  · refine causal_readBit.bind fun bit => ?_
    cases bit with
    | false => exact Eff.causal_pure _
    | true =>
      refine causal_readBit.bind fun bit => ?_
      cases bit with
      | false => exact (causal_readMeaningful _).bind fun _ => Eff.causal_pure _
      | true => exact causal_readWindow.bind fun _ => (causal_readMeaningful _).bind fun _ => Eff.causal_pure _

theorem causal_collect (remaining : Nat) : ∀ d : Decoder, Eff.Causal BitReader.left (d.collect remaining) := by
  induction remaining with
  | zero => exact fun _ => Eff.causal_pure _
  | succ remaining ih =>
    intro d
    refine Eff.Causal.bind ?_ fun res => (ih res.2).bind fun _ => Eff.causal_pure _
    exact (causal_nextTimestamp d _).bind fun _ => (causal_nextBits d _).bind fun _ => Eff.causal_pure _

/-! ## Whole chunks -/

theorem decodeAll_eq {chunk : Bytes} (h : 4 ≤ chunk.length) :
    decodeAll chunk = (({ total := Bytes.toNatLE (chunk.take 4) : Decoder }.collect
      (Bytes.toNatLE (chunk.take 4))).exec { bytes := chunk, position := 32 }).1 := by
  rw [decodeAll, if_neg (by omega)]
  match chunk, h with
  | _ :: _ :: _ :: _ :: _, _ => rfl

/-- Where a decoder starts, behind the header. -/
theorem left_start (header body : Bytes) (h : header.length = 4) :
    BitReader.left { bytes := header ++ body, position := 32 } = bytesBits body := by
  rw [BitReader.left, bytesBits_append, List.drop_left' (by rw [length_bytesBits, h])]

/-- **Arbitrary bytes.** The decoder returns samples or an error exactly when every window fits a word. -/
theorem decodeAll_safe_iff (chunk : Bytes) : (∃ r, decodeAll chunk = Codec.lift r) ↔ chunkFits chunk = true := by
  rcases Nat.lt_or_ge chunk.length 4 with hshort | hlong
  · have hnil : (bytesBits chunk).drop 32 = [] := List.drop_eq_nil_of_le (by rw [length_bytesBits]; omega)
    have hfits : chunkFits chunk = true := by rw [chunkFits, hnil, windowsFit_nil]
    exact ⟨fun _ => hfits, fun _ => ⟨.error _, by rw [decodeAll, if_pos hshort]; rfl⟩⟩
  · rw [decodeAll_eq hlong]
    generalize hcount : Bytes.toNatLE (chunk.take 4) = count
    have hsat := @sat_collect count { total := count } (Nat.zero_lt_succ 63) le_rfl { bytes := chunk, position := 32 }
    simp only [Nat.sub_self, Nat.sub_zero] at hsat
    have hscan : chunkFits chunk = windowsFit count 0 64 (BitReader.left { bytes := chunk, position := 32 }) := by
      rw [chunkFits, hcount]
      rfl
    rw [hscan]
    rcases hrun : ({ total := count : Decoder }.collect count).exec { bytes := chunk, position := 32 } with
      ⟨e | read, r⟩
    · rcases hsat.of_error hrun with ⟨rfl, hfits⟩ | ⟨rfl, hwide⟩
      · exact ⟨fun _ => hfits, fun _ => ⟨.error _, rfl⟩⟩
      · refine ⟨?_, fun hfits => by rw [hfits] at hwide; cases hwide⟩
        rintro ⟨_ | _, hr⟩ <;> cases hr
    · exact ⟨fun _ => (hsat.of_ok hrun).2, fun _ => ⟨.ok read, rfl⟩⟩

section Closed

variable {samples : List Sample} (h : samples.length < 2 ^ 32)
include h

theorem count_encode : (encode samples).count.toNat = samples.length := by
  rw [encode, count_foldl]
  exact (congrArg (· % 2 ^ 32) (Nat.zero_add _)).trans (Nat.mod_eq_of_lt h)

theorem toNatLE_header : Bytes.toNatLE (Bytes.ofNatLE 4 (encode samples).count.toNat) = samples.length := by
  rw [count_encode h]
  exact Bytes.toNatLE_ofNatLE (by omega)

/-- A decoder of the samples, at its start. -/
theorem consumes_encoded : Eff.Consumes BitReader.left ({ total := samples.length : Decoder }.collect samples.length)
    (streamBits {} samples) samples :=
  consumes_collect samples ⟨rfl, rfl, rfl, nofun⟩ (Nat.zero_add _).symm h

omit h in
theorem packs_encode (samples : List Sample) : (encode samples).writer.Packs (streamBits {} samples) :=
  @packs_foldl samples {} [] packs_new

theorem decodeAll_close : decodeAll (encode samples).close = .ok samples := by
  obtain ⟨hbits, -⟩ := packs_encode samples
  have hlength := Bytes.length_ofNatLE 4 (encode samples).count.toNat
  obtain ⟨r, hr, -⟩ := consumes_encoded h _ _ ((left_start _ _ hlength).trans hbits)
  rw [decodeAll_eq (by rw [Encoder.close, List.length_append]; omega), Encoder.close, List.take_left' hlength,
    toNatLE_header h, hr]

theorem decodeAll_cut_ne_ok {part : Bytes} (hpart : part <+: (encode samples).close)
    (hproper : part ≠ (encode samples).close) (read : List Sample) : decodeAll part ≠ .ok read := by
  rcases Nat.lt_or_ge part.length 4 with hshort | hlong
  · rw [decodeAll, if_pos hshort]
    exact nofun
  · have hlength := Bytes.length_ofNatLE 4 (encode samples).count.toNat
    -- the cut is behind the header
    obtain ⟨body, rfl⟩ := List.prefix_of_prefix_length_le (List.prefix_append _ _) hpart (hlength.trans_le hlong)
    obtain ⟨missing, hmissing⟩ := hpart
    rw [Encoder.close, List.append_assoc, List.append_cancel_left_eq] at hmissing
    have hne : missing ≠ [] := by
      rintro rfl
      rw [List.append_nil] at hmissing
      exact hproper (by rw [hmissing, Encoder.close])
    obtain ⟨hbits, hfree⟩ := packs_encode samples
    rw [decodeAll_eq hlong, List.take_left' hlength, toNatLE_header h]
    have hwhole := (left_start _ _ hlength).trans hbits
    have hcut : BitReader.left { bytes := (encode samples).close, position := 32 } = BitReader.left
        { bytes := Bytes.ofNatLE 4 (encode samples).count.toNat ++ body, position := 32 } ++ bytesBits missing := by
      rw [left_start _ _ hlength, Encoder.close, left_start _ _ hlength, ← hmissing, bytesBits_append]
    intro hok
    refine (causal_collect samples.length { total := samples.length }).refuses_cut (consumes_encoded h) hwhole hcut ?_
      read _ (Prod.ext hok rfl)
    have hpos := List.length_pos_iff.mpr hne
    rw [List.length_replicate, length_bytesBits]
    omega

end Closed

/-- A chunk holds as many samples as its header counts. -/
theorem length_of_decodeAll {chunk : Bytes} {read : List Sample} (h : decodeAll chunk = .ok read) :
    read.length < 2 ^ 32 := by
  rcases Nat.lt_or_ge chunk.length 4 with hshort | hlong
  · rw [decodeAll, if_pos hshort] at h
    cases h
  · rw [decodeAll_eq hlong] at h
    have hsat := @sat_collect (Bytes.toNatLE (chunk.take 4)) { total := Bytes.toNatLE (chunk.take 4) }
      (Nat.zero_lt_succ 63) le_rfl { bytes := chunk, position := 32 }
    obtain ⟨hlength, -⟩ := hsat.of_ok (Prod.ext h rfl)
    have hcount := Bytes.toNatLE_lt (chunk.take 4)
    rw [List.length_take_of_le hlong] at hcount
    omega

/-- **The chunk codec.** A list of samples is read back bit for bit from its closed chunk, whose length the encoder
knew, and from no proper prefix of it, and any bytes are decoded to samples or an error, exactly when the samples can
be counted in 32 bits and every window of the bytes fits a word. -/
theorem chunk_codec_iff (samples : List Sample) (chunk : Bytes) :
    (decodeAll (encode samples).close = .ok samples ∧
      (encode samples).byteLen = (encode samples).close.length ∧
      (∀ part, part <+: (encode samples).close → part ≠ (encode samples).close → ∀ read, decodeAll part ≠ .ok read) ∧
      ∃ r, decodeAll chunk = Codec.lift r) ↔
    samples.length < 2 ^ 32 ∧ chunkFits chunk = true := by
  rw [decodeAll_safe_iff]
  constructor
  · rintro ⟨hread, -, -, hfits⟩
    exact ⟨length_of_decodeAll hread, hfits⟩
  · rintro ⟨hcount, hfits⟩
    refine ⟨decodeAll_close hcount, ?_, fun part hpart hproper => decodeAll_cut_ne_ok hcount hpart hproper, hfits⟩
    rw [Encoder.byteLen, Encoder.close, List.length_append, Bytes.length_ofNatLE]

/-- Two samples; the second opens a window of 64 bits behind 31 leading zeros. -/
def wideChunk : Bytes := [2, 0, 0, 0] ++ List.replicate 24 0 ++ [0xFE] ++ List.replicate 9 0

/-- The decoder underflows on it. -/
theorem decodeAll_wideChunk : decodeAll wideChunk = .error .panic ∧ ¬∃ r, decodeAll wideChunk = Codec.lift r := by
  have hpanic : decodeAll wideChunk = .error .panic := by decide +kernel
  refine ⟨hpanic, ?_⟩
  rintro ⟨_ | _, hr⟩ <;> rw [hpanic] at hr <;> cases hr

end Signy.Gorilla
