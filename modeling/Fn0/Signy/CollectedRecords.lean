/-
The records of a collected batch (signy/src/collect.rs, `CollectedRecords`): the body arrives in chunks, a decoder
makes plain bytes of them, and a record is handed out as soon as its last byte is there.

zstd is a parameter. It takes slices of the compressed stream and appends to its output whatever it can, when it can;
`Decodes` says that the output of any way of slicing the stream, with what a flush adds, is the same plain bytes.
-/
import Mathlib
import Fn0.Collecty.QueueFraming

namespace Collecty.Wire

/-- `split_records`, with its errors. -/
def splitRecords (plain : Bytes) : Except String (List Bytes) :=
  if plain = [] then .ok []
  else if plain.length < recordHeaderBytes then
    .error s!"a record header needs {recordHeaderBytes} bytes and {plain.length} are left"
  else
    let len := Bytes.toNatLE (plain.take recordHeaderBytes)
    let rest := plain.drop recordHeaderBytes
    if rest.length < len then .error s!"a record claims {len} bytes and {rest.length} are left"
    else (splitRecords (rest.drop len)).map (rest.take len :: ·)
termination_by plain.length
decreasing_by
  simp only [List.length_drop, recordHeaderBytes] at *
  omega

/-- The lengths that the record headers of a byte string claim, as far as they can be found. -/
def claims (plain : Bytes) : List Nat :=
  if plain.length < recordHeaderBytes then []
  else
    let len := Bytes.toNatLE (plain.take recordHeaderBytes)
    let rest := plain.drop recordHeaderBytes
    len :: if rest.length < len then [] else claims (rest.drop len)
termination_by plain.length
decreasing_by
  simp only [List.length_drop, recordHeaderBytes] at *
  omega

section Frames
variable {payload rest plain : Bytes}

/-- A framed record is its header and its payload. -/
theorem frame_parts (h : payload.length < 2 ^ 32) (rest : Bytes) :
    ¬ (frameRecord payload ++ rest).length < recordHeaderBytes ∧
      Bytes.toNatLE ((frameRecord payload ++ rest).take recordHeaderBytes) = payload.length ∧
      (frameRecord payload ++ rest).drop recordHeaderBytes = payload ++ rest := by
  refine ⟨by simp [frameRecord, recordHeaderBytes], ?_, by simp [frameRecord, recordHeaderBytes]⟩
  have hhead : (frameRecord payload ++ rest).take recordHeaderBytes = Bytes.ofNatLE 4 payload.length := by
    simp [frameRecord, recordHeaderBytes]
  rw [hhead]
  exact Bytes.toNatLE_ofNatLE (by simpa using h)

theorem splitRecords_frame (h : payload.length < 2 ^ 32) :
    splitRecords (frameRecord payload ++ rest) = (splitRecords rest).map (payload :: ·) := by
  obtain ⟨hlong, hlen, hdrop⟩ := frame_parts h rest
  have hne : frameRecord payload ++ rest ≠ [] := fun hnil => hlong (by simp [hnil, recordHeaderBytes])
  rw [splitRecords, if_neg hne, if_neg hlong, hlen, hdrop]
  simp

theorem claims_frame (h : payload.length < 2 ^ 32) :
    claims (frameRecord payload ++ rest) = payload.length :: claims rest := by
  obtain ⟨hlong, hlen, hdrop⟩ := frame_parts h rest
  rw [claims, if_neg hlong, hlen, hdrop]
  simp

theorem wholeRecordsLen_frame (h : payload.length < 2 ^ 32) :
    wholeRecordsLen (frameRecord payload ++ rest) = (frameRecord payload).length + wholeRecordsLen rest := by
  have htake := takeRecord_frame h rest
  rw [wholeRecordsLen]
  split
  · next hnone => rw [htake] at hnone; cases hnone
  · next hsome =>
    rw [htake] at hsome
    cases hsome
    simp [frameRecord]

/-- Records side by side split as what follows them does. -/
theorem splitRecords_frames_append {records : List Bytes} (h : ∀ payload ∈ records, payload.length < 2 ^ 32) :
    splitRecords (records.flatMap frameRecord ++ rest) = (splitRecords rest).map (records ++ ·) := by
  induction records with
  | nil => cases hrest : splitRecords rest <;> simp [Except.map, hrest]
  | cons payload records ih =>
    rw [List.forall_mem_cons] at h
    rw [List.flatMap_cons, List.append_assoc, splitRecords_frame h.1, ih h.2]
    cases splitRecords rest <;> rfl

theorem claims_frames_append {records : List Bytes} (h : ∀ payload ∈ records, payload.length < 2 ^ 32) :
    claims (records.flatMap frameRecord ++ rest) = records.map List.length ++ claims rest := by
  induction records with
  | nil => rfl
  | cons payload records ih =>
    rw [List.forall_mem_cons] at h
    rw [List.flatMap_cons, List.append_assoc, claims_frame h.1, ih h.2]
    rfl

theorem wholeRecordsLen_frames_append {records : List Bytes} (h : ∀ payload ∈ records, payload.length < 2 ^ 32) :
    wholeRecordsLen (records.flatMap frameRecord ++ rest) =
      (records.flatMap frameRecord).length + wholeRecordsLen rest := by
  induction records with
  | nil => simp
  | cons payload records ih =>
    rw [List.forall_mem_cons] at h
    rw [List.flatMap_cons, List.append_assoc, wholeRecordsLen_frame h.1, ih h.2, List.length_append, Nat.add_assoc]

theorem wholeRecordsLen_of_none (h : takeRecord plain = none) : wholeRecordsLen plain = 0 := by
  rw [wholeRecordsLen]
  split
  · rfl
  · next hsome => rw [h] at hsome; cases hsome

end Frames

end Collecty.Wire

namespace Signy.Collect

open Collecty (recordHeaderBytes frameRecord takeRecord wholeRecordsLen)
open Collecty.Wire

structure IngestError where
  status : Nat
  message : String
deriving DecidableEq, Repr

def collectRecordHeaderBytes : Nat := 4

/-- The two sides of the wire agree on the header. -/
theorem collectRecordHeaderBytes_eq : collectRecordHeaderBytes = recordHeaderBytes := rfl

def maxCollectRecordBytes : Nat := 16 * 1024 * 1024
def decoderFeedBytes : Nat := 16 * 1024

/-- `zstd::stream::write::Decoder`: what a write and a flush append to the output. -/
structure Decoder (δ : Type) where
  write : δ → Bytes → Except String (δ × Bytes)
  flush : δ → Except String (δ × Bytes)

/-- The reader of a batch: what the transport has still to deliver, the decoder with its output, and what of the
last chunk it has not been fed. -/
structure CollectedRecords (δ : Type) where
  body : List (Except String Bytes)
  decoder : δ
  plain : Bytes
  pending : Bytes
  ended : Bool

namespace CollectedRecords
variable {δ : Type}

def new (decoder : δ) (body : List (Except String Bytes)) : CollectedRecords δ :=
  { body, decoder, plain := [], pending := [], ended := false }

/-- The record at the front of the decoded bytes, if all of it has arrived. -/
def take (s : CollectedRecords δ) : Except IngestError (Option (Bytes × CollectedRecords δ)) :=
  if s.plain.length < collectRecordHeaderBytes then .ok none
  else
    let len := Bytes.toNatLE (s.plain.take collectRecordHeaderBytes)
    if len > maxCollectRecordBytes then
      .error ⟨413, s!"a record claims {len} bytes, over the maximum of {maxCollectRecordBytes}"⟩
    else
      let recordEnd := collectRecordHeaderBytes + len
      if s.plain.length < recordEnd then .ok none
      else .ok (some ((s.plain.take recordEnd).drop collectRecordHeaderBytes,
        { s with plain := s.plain.drop recordEnd }))

def truncated (plain : Bytes) (left : Nat) : IngestError :=
  if left < collectRecordHeaderBytes then
    ⟨400, s!"a record header needs {collectRecordHeaderBytes} bytes and {left} are left"⟩
  else
    let len := Bytes.toNatLE (plain.take collectRecordHeaderBytes)
    ⟨400, s!"a record claims {len} bytes and {left - collectRecordHeaderBytes} are left"⟩

def next (z : Decoder δ) (s : CollectedRecords δ) : Except IngestError (Option Bytes) × CollectedRecords δ :=
  match s.take with
  | .error error => (.error error, s)
  | .ok (some (record, s)) => (.ok (some record), s)
  | .ok none =>
    if s.pending ≠ [] then
      match z.write s.decoder (s.pending.take decoderFeedBytes) with
      | .error error =>
        (.error ⟨400, s!"the batch could not be decompressed: {error}"⟩,
          { s with pending := s.pending.drop decoderFeedBytes })
      | .ok (decoder, output) =>
        next z { s with decoder, plain := s.plain ++ output, pending := s.pending.drop decoderFeedBytes }
    else if s.ended then
      if s.plain.length = 0 then (.ok none, s) else (.error (truncated s.plain s.plain.length), s)
    else
      match _hbody : s.body with
      | .ok chunk :: body => next z { s with body, pending := chunk }
      | .error error :: body => (.error ⟨400, s!"the batch stopped arriving: {error}"⟩, { s with body })
      | [] =>
        match z.flush s.decoder with
        | .error error =>
          (.error ⟨400, s!"the batch could not be decompressed: {error}"⟩, { s with ended := true })
        | .ok (decoder, output) => next z { s with ended := true, decoder, plain := s.plain ++ output }
termination_by (s.body.length, s.pending.length, if s.ended then 0 else 1)
decreasing_by
  · next hpending =>
    refine Prod.Lex.right _ (Prod.Lex.left _ _ ?_)
    rw [List.length_drop]
    have := List.length_pos_of_ne_nil hpending
    simp only [decoderFeedBytes]
    omega
  · refine Prod.Lex.left _ _ ?_
    rw [_hbody]
    exact Nat.lt_succ_self _
  · next hended =>
    refine Prod.Lex.right _ (Prod.Lex.right _ ?_)
    simp [hended]

/-- The records a reader hands out, and how it ends. -/
inductive Yields (z : Decoder δ) : CollectedRecords δ → List Bytes → Except IngestError Unit → Prop
  | done {s s'} : next z s = (.ok none, s') → Yields z s [] (.ok ())
  | failed {s s' error} : next z s = (.error error, s') → Yields z s [] (.error error)
  | record {s s' record records outcome} : next z s = (.ok (some record), s') → Yields z s' records outcome →
      Yields z s (record :: records) outcome

theorem Yields.unique {z : Decoder δ} {s : CollectedRecords δ} {records records' : List Bytes}
    {outcome outcome' : Except IngestError Unit} (h : Yields z s records outcome) (h' : Yields z s records' outcome') :
    records' = records ∧ outcome' = outcome := by
  induction h generalizing records' outcome' with
  | done h =>
    cases h' with
    | done => exact ⟨rfl, rfl⟩
    | failed h' => rw [h] at h'; cases h'
    | record h' => rw [h] at h'; cases h'
  | failed h =>
    cases h' with
    | done h' => rw [h] at h'; cases h'
    | failed h' => rw [h] at h'; cases h'; exact ⟨rfl, rfl⟩
    | record h' => rw [h] at h'; cases h'
  | record h _ ih =>
    cases h' with
    | done h' => rw [h] at h'; cases h'
    | failed h' => rw [h] at h'; cases h'
    | record h' hrest =>
      rw [h] at h'
      cases h'
      obtain ⟨rfl, rfl⟩ := ih hrest
      exact ⟨rfl, rfl⟩

/-! ## The decoder -/

/-- Feeding slices one after the other: the decoder after them, and the output they made. -/
def feed (z : Decoder δ) : δ → List Bytes → Except String (δ × Bytes)
  | decoder, [] => .ok (decoder, [])
  | decoder, slice :: slices => do
    let (decoder, output) ← z.write decoder slice
    let (decoder, rest) ← feed z decoder slices
    return (decoder, output ++ rest)

/-- From here the decoder turns the compressed bytes into the plain ones, however they are cut and whenever it lets
go of its output. -/
def Decodes (z : Decoder δ) (decoder : δ) (compressed plain : Bytes) : Prop :=
  ∀ slices : List Bytes, slices.flatten = compressed → ∃ d output d' last,
    feed z decoder slices = .ok (d, output) ∧ z.flush d = .ok (d', last) ∧ output ++ last = plain

theorem Decodes.write {z : Decoder δ} {decoder : δ} {slice rest plain : Bytes}
    (h : Decodes z decoder (slice ++ rest) plain) : ∃ d output plain', z.write decoder slice = .ok (d, output) ∧
      plain = output ++ plain' ∧ Decodes z d rest plain' := by
  -- one way of cutting the rest gives the output of the slice; the others agree with it
  obtain ⟨_, _, _, _, hfeed, -, -⟩ := h [slice, rest] (by simp)
  obtain ⟨⟨d, output⟩, hwrite, -⟩ := Except.bind_eq_ok.mp hfeed
  have hrest : ∀ slices : List Bytes, slices.flatten = rest → ∃ d₁ output₁ d₂ last,
      feed z d slices = .ok (d₁, output₁) ∧ z.flush d₁ = .ok (d₂, last) ∧ output ++ (output₁ ++ last) = plain := by
    intro slices hslices
    obtain ⟨d₁, out, d₂, last, hfeed, hflush, hplain⟩ := h (slice :: slices) (by simp [hslices])
    obtain ⟨⟨d', output'⟩, hwrite', hfeed⟩ := Except.bind_eq_ok.mp hfeed
    rw [hwrite] at hwrite'
    cases hwrite'
    obtain ⟨⟨d₃, output₁⟩, hfeed', hret⟩ := Except.bind_eq_ok.mp hfeed
    cases hret
    exact ⟨d₁, output₁, d₂, last, hfeed', hflush, by rw [← hplain, List.append_assoc]⟩
  obtain ⟨_, output₁, _, last, -, -, hplain⟩ := hrest [rest] (by simp)
  refine ⟨d, output, output₁ ++ last, hwrite, hplain.symm, fun slices hslices => ?_⟩
  obtain ⟨d₁, output₂, d₂, last₂, hfeed, hflush, hplain₂⟩ := hrest slices hslices
  exact ⟨d₁, output₂, d₂, last₂, hfeed, hflush, List.append_cancel_left (hplain₂.trans hplain.symm)⟩

theorem Decodes.flush {z : Decoder δ} {decoder : δ} {plain : Bytes} (h : Decodes z decoder [] plain) :
    ∃ d, z.flush decoder = .ok (d, plain) := by
  obtain ⟨d, output, d', last, hfeed, hflush, hplain⟩ := h [] rfl
  cases hfeed
  exact ⟨d', by rw [hflush, ← hplain]; rfl⟩

/-! ## One record -/

/-- What is at the front of the plain bytes that a reader has still to hand out. -/
def front (plain : Bytes) : Except IngestError (Option (Bytes × Bytes)) :=
  if plain = [] then .ok none
  else if plain.length < collectRecordHeaderBytes then .error (truncated plain plain.length)
  else
    let len := Bytes.toNatLE (plain.take collectRecordHeaderBytes)
    let rest := plain.drop collectRecordHeaderBytes
    if len > maxCollectRecordBytes then
      .error ⟨413, s!"a record claims {len} bytes, over the maximum of {maxCollectRecordBytes}"⟩
    else if rest.length < len then .error (truncated plain plain.length)
    else .ok (some (rest.take len, rest.drop len))

/-- The reader has the plain bytes before it: those decoded already, and those still to come. -/
def Holds (z : Decoder δ) (s : CollectedRecords δ) (plain : Bytes) : Prop :=
  if s.ended then s.pending = [] ∧ s.plain = plain
  else ∃ (chunks : List Bytes) (rest : Bytes), s.body = chunks.map .ok ∧ plain = s.plain ++ rest ∧
    Decodes z s.decoder (s.pending ++ chunks.flatten) rest

theorem Holds.isPrefix {z : Decoder δ} {s : CollectedRecords δ} {plain : Bytes} (h : Holds z s plain) :
    ∃ rest, plain = s.plain ++ rest := by
  unfold Holds at h
  split at h
  · exact ⟨[], by simp [h.2]⟩
  · obtain ⟨_, rest, -, hplain, -⟩ := h
    exact ⟨rest, hplain⟩

theorem Holds.drop {z : Decoder δ} {s : CollectedRecords δ} {plain : Bytes} (h : Holds z s plain) {n : Nat}
    (hn : n ≤ s.plain.length) : Holds z { s with plain := s.plain.drop n } (plain.drop n) := by
  unfold Holds at h ⊢
  split at h
  · next hended =>
    rw [if_pos hended]
    exact ⟨h.1, by rw [h.2]⟩
  · next hended =>
    rw [if_neg hended]
    obtain ⟨chunks, rest, hbody, rfl, hdec⟩ := h
    exact ⟨chunks, rest, hbody, by rw [List.drop_append_of_le_length hn], hdec⟩

/-- A record that has arrived, or a claim that is too large, is at the front; what else may be is still coming. -/
theorem take_spec {z : Decoder δ} {s : CollectedRecords δ} {plain : Bytes} (h : Holds z s plain) :
    (∃ error, s.take = .error error ∧ front plain = .error error) ∨
    (∃ record s' rest, s.take = .ok (some (record, s')) ∧ front plain = .ok (some (record, rest)) ∧ Holds z s' rest) ∨
    (s.take = .ok none ∧ (s.plain = plain → front plain =
      if s.plain.length = 0 then .ok none else .error (truncated s.plain s.plain.length))) := by
  obtain ⟨rest, hplain⟩ := h.isPrefix
  have hfour : collectRecordHeaderBytes = 4 := rfl
  unfold take
  by_cases hheader : s.plain.length < collectRecordHeaderBytes
  · refine .inr (.inr ⟨if_pos hheader, fun heq => ?_⟩)
    subst heq
    unfold front
    by_cases hnil : s.plain = []
    · simp [hnil]
    · rw [if_neg hnil, if_pos hheader, if_neg (by simpa using hnil)]
  rw [if_neg hheader]
  have hheader' : collectRecordHeaderBytes ≤ s.plain.length := not_lt.mp hheader
  have hne : plain ≠ [] := by
    rintro rfl
    have := congrArg List.length hplain
    simp only [List.length_nil, List.length_append] at this
    omega
  have hlong : ¬ plain.length < collectRecordHeaderBytes := by
    rw [hplain, List.length_append]
    omega
  have hhead : plain.take collectRecordHeaderBytes = s.plain.take collectRecordHeaderBytes := by
    rw [hplain, List.take_append_of_le_length hheader']
  dsimp only
  unfold front
  rw [if_neg hne, if_neg hlong, hhead]
  generalize Bytes.toNatLE (s.plain.take collectRecordHeaderBytes) = len
  dsimp only
  by_cases hmax : len > maxCollectRecordBytes
  · exact .inl ⟨_, if_pos hmax, if_pos hmax⟩
  rw [if_neg hmax, if_neg hmax]
  by_cases hwhole : s.plain.length < collectRecordHeaderBytes + len
  · refine .inr (.inr ⟨if_pos hwhole, fun heq => ?_⟩)
    subst heq
    have hcut : (s.plain.drop collectRecordHeaderBytes).length < len := by
      rw [List.length_drop]
      omega
    rw [if_pos hcut, if_neg (by omega)]
  · refine .inr (.inl ⟨_, _, plain.drop (collectRecordHeaderBytes + len), if_neg hwhole, ?_, h.drop (not_lt.mp hwhole)⟩)
    have hall : ¬ (plain.drop collectRecordHeaderBytes).length < len := by
      rw [List.length_drop, hplain, List.length_append]
      omega
    have hrecord : (plain.drop collectRecordHeaderBytes).take len =
        (s.plain.take (collectRecordHeaderBytes + len)).drop collectRecordHeaderBytes := by
      rw [List.drop_take, hplain, List.drop_append_of_le_length hheader', List.take_append_of_le_length,
        Nat.add_sub_cancel_left]
      rw [List.length_drop]
      omega
    rw [if_neg hall, hrecord, List.drop_drop]

theorem Holds.feed {z : Decoder δ} {s : CollectedRecords δ} {plain : Bytes} (h : Holds z s plain)
    (hpending : s.pending ≠ []) : ∃ d output, z.write s.decoder (s.pending.take decoderFeedBytes) = .ok (d, output) ∧
      Holds z
        { s with decoder := d, plain := s.plain ++ output, pending := s.pending.drop decoderFeedBytes } plain := by
  unfold Holds at h
  split at h
  · exact absurd h.1 hpending
  next hended =>
  obtain ⟨chunks, rest, hbody, rfl, hdec⟩ := h
  rw [← List.take_append_drop decoderFeedBytes s.pending, List.append_assoc] at hdec
  obtain ⟨d, output, rest', hwrite, rfl, hdec'⟩ := hdec.write
  refine ⟨d, output, hwrite, ?_⟩
  unfold Holds
  rw [if_neg hended]
  exact ⟨chunks, rest', hbody, by simp, hdec'⟩

theorem Holds.chunk {z : Decoder δ} {s : CollectedRecords δ} {plain chunk : Bytes} {body : List (Except String Bytes)}
    (h : Holds z s plain) (hpending : s.pending = []) (hended : ¬ s.ended = true) (hbody : s.body = .ok chunk :: body) :
    Holds z { s with body, pending := chunk } plain := by
  unfold Holds at h ⊢
  rw [if_neg hended] at h ⊢
  obtain ⟨chunks, rest, hchunks, rfl, hdec⟩ := h
  rw [hbody] at hchunks
  cases chunks with
  | nil => cases hchunks
  | cons c chunks =>
    rw [List.map_cons, List.cons.injEq, Except.ok.injEq] at hchunks
    obtain ⟨rfl, rfl⟩ := hchunks
    exact ⟨chunks, rest, rfl, rfl, by simpa [hpending] using hdec⟩

theorem Holds.flush {z : Decoder δ} {s : CollectedRecords δ} {plain : Bytes} (h : Holds z s plain)
    (hpending : s.pending = []) (hended : ¬ s.ended = true) (hbody : s.body = []) : ∃ d output,
      z.flush s.decoder = .ok (d, output) ∧
      Holds z { s with ended := true, decoder := d, plain := s.plain ++ output } plain := by
  unfold Holds at h
  rw [if_neg hended] at h
  obtain ⟨chunks, rest, hchunks, rfl, hdec⟩ := h
  obtain rfl : chunks = [] := by simpa [hbody] using hchunks.symm
  rw [hpending] at hdec
  obtain ⟨d, hflush⟩ := hdec.flush
  exact ⟨d, rest, hflush, by simp [Holds, hpending]⟩

theorem next_spec {z : Decoder δ} {s : CollectedRecords δ} : ∀ {plain : Bytes}, Holds z s plain →
    (next z s).1 = (front plain).map (Option.map Prod.fst) ∧
      ∀ record rest, front plain = .ok (some (record, rest)) → Holds z (next z s).2 rest := by
  induction s using next.induct z with
  | case1 s error htake =>
    intro plain h
    rcases take_spec h with ⟨e, he, hfront⟩ | ⟨_, _, _, he, -⟩ | ⟨he, -⟩
    all_goals rw [htake] at he
    all_goals cases he
    rw [next, htake, hfront]
    exact ⟨rfl, nofun⟩
  | case2 s record s' htake =>
    intro plain h
    rcases take_spec h with ⟨e, he, hfront⟩ | ⟨_, _, rest, he, hfront, hrest⟩ | ⟨he, -⟩
    all_goals rw [htake] at he
    all_goals cases he
    rw [next, htake, hfront]
    refine ⟨rfl, fun record' rest' heq => ?_⟩
    cases heq
    exact hrest
  | case3 s htake hpending error hwrite =>
    intro plain h
    obtain ⟨d, output, hok, -⟩ := h.feed hpending
    cases hwrite.symm.trans hok
  | case4 s htake hpending decoder output hwrite ih =>
    intro plain h
    obtain ⟨d, output', hok, hs⟩ := h.feed hpending
    cases hwrite.symm.trans hok
    rw [next, htake]
    simp only [hpending, ne_eq, not_false_eq_true, if_true]
    rw [show z.write s.decoder (s.pending.take decoderFeedBytes) = _ from hok]
    exact ih hs
  | case5 s htake hpending hended hleft =>
    intro plain h
    have hplain : s.plain = plain := by
      unfold Holds at h
      rw [if_pos hended] at h
      exact h.2
    rcases take_spec h with ⟨e, he, -⟩ | ⟨_, _, _, he, -⟩ | ⟨-, hfront⟩
    · rw [htake] at he; cases he
    · rw [htake] at he; cases he
    rw [next, htake, hfront hplain]
    simp only [hpending, hended, if_true, if_false, show s.plain.length = 0 from hleft]
    exact ⟨rfl, nofun⟩
  | case6 s htake hpending hended hleft =>
    intro plain h
    have hplain : s.plain = plain := by
      unfold Holds at h
      rw [if_pos hended] at h
      exact h.2
    rcases take_spec h with ⟨e, he, -⟩ | ⟨_, _, _, he, -⟩ | ⟨-, hfront⟩
    · rw [htake] at he; cases he
    · rw [htake] at he; cases he
    have hne : ¬ s.plain.length = 0 := hleft
    rw [next, htake, hfront hplain]
    simp only [hpending, hended, if_true, if_false, hne]
    exact ⟨rfl, nofun⟩
  | case7 s htake hpending hended chunk body hbody ih =>
    intro plain h
    rw [next, htake]
    dsimp only
    rw [if_neg hpending, if_neg hended]
    split
    · next hbody' =>
      rw [hbody] at hbody'
      cases hbody'
      exact ih (h.chunk (not_not.mp hpending) hended hbody)
    · next hbody' => rw [hbody] at hbody'; cases hbody'
    · next hbody' => rw [hbody] at hbody'; cases hbody'
  | case8 s htake hpending hended error body hbody =>
    intro plain h
    unfold Holds at h
    rw [if_neg hended] at h
    obtain ⟨chunks, -, hchunks, -⟩ := h
    rw [hbody] at hchunks
    cases chunks <;> cases hchunks
  | case9 s htake hpending hended hbody error hflush =>
    intro plain h
    obtain ⟨d, output, hok, -⟩ := h.flush (not_not.mp hpending) hended hbody
    cases hflush.symm.trans hok
  | case10 s htake hpending hended hbody decoder output hflush ih =>
    intro plain h
    obtain ⟨d, output, hok, hs⟩ := h.flush (not_not.mp hpending) hended hbody
    cases hflush.symm.trans hok
    rw [next, htake]
    dsimp only
    rw [if_neg hpending, if_neg hended]
    split
    · next hbody' => rw [hbody] at hbody'; cases hbody'
    · next hbody' => rw [hbody] at hbody'; cases hbody'
    · simp only [hok]
      exact ih hs

/-! ## The whole batch -/

theorem front_eq_none {plain : Bytes} (h : front plain = .ok none) : plain = [] := by
  unfold front at h
  split at h
  · assumption
  split at h
  · cases h
  dsimp only at h
  split at h
  · cases h
  split at h <;> cases h

theorem front_eq_some {plain record rest : Bytes} (h : front plain = .ok (some (record, rest))) :
    plain = frameRecord record ++ rest ∧ record.length ≤ maxCollectRecordBytes := by
  unfold front at h
  split at h
  · cases h
  split at h
  · cases h
  next hlong =>
  dsimp only at h
  split at h
  · cases h
  next hmax =>
  split at h
  · cases h
  next hall =>
  cases h
  have hlen : ((plain.drop collectRecordHeaderBytes).take
      (Bytes.toNatLE (plain.take collectRecordHeaderBytes))).length = Bytes.toNatLE
        (plain.take collectRecordHeaderBytes) :=
    List.length_take_of_le (not_lt.mp hall)
  refine ⟨?_, by rw [hlen]; exact not_lt.mp hmax⟩
  have hhead : Bytes.ofNatLE recordHeaderBytes (Bytes.toNatLE (plain.take collectRecordHeaderBytes)) =
      plain.take collectRecordHeaderBytes := by
    have := Bytes.ofNatLE_toNatLE (plain.take collectRecordHeaderBytes)
    rwa [List.length_take_of_le (not_lt.mp hlong)] at this
  rw [frameRecord, hlen, hhead, List.append_assoc, List.take_append_drop, List.take_append_drop]

/-- What is left when a reader stops: nothing, or bytes that have no admissible record in front. -/
def Stops (rest : Bytes) (outcome : Except IngestError Unit) : Prop :=
  (rest = [] ∧ outcome = .ok ()) ∨ ∃ error, front rest = .error error ∧ outcome = .error error

theorem yields_of_holds {z : Decoder δ} {s : CollectedRecords δ} {plain : Bytes} (h : Holds z s plain) :
    ∃ records rest outcome, Yields z s records outcome ∧ plain = records.flatMap frameRecord ++ rest ∧
      (∀ record ∈ records, record.length ≤ maxCollectRecordBytes) ∧ Stops rest outcome := by
  generalize hn : plain.length = n
  induction n using Nat.strong_induction_on generalizing plain s with
  | _ n ih =>
    obtain ⟨hnext, hholds⟩ := next_spec h
    cases hfront : front plain with
    | error error =>
      rw [hfront] at hnext
      exact ⟨[], plain, .error error, .failed (Prod.ext hnext rfl), by simp, by simp, .inr ⟨error, hfront, rfl⟩⟩
    | ok found =>
      rw [hfront] at hnext
      cases found with
      | none =>
        exact ⟨[], [], .ok (), .done (Prod.ext hnext rfl), by simp [front_eq_none hfront], by simp, .inl ⟨rfl, rfl⟩⟩
      | some found =>
        obtain ⟨record, rest⟩ := found
        obtain ⟨hplain, hmax⟩ := front_eq_some hfront
        have hless : rest.length < n := by
          rw [← hn, hplain]
          simp [frameRecord, recordHeaderBytes]
          omega
        obtain ⟨records, rest', outcome, hyields, hrest, hmaxs, hstops⟩ := ih _ hless (hholds record rest hfront) rfl
        exact ⟨record :: records, rest', outcome, .record (Prod.ext hnext rfl) hyields, by simp [hplain, hrest],
          by simpa [hmax] using hmaxs, hstops⟩

/-- The bytes that a reader refuses: a claim above the maximum, or not even one whole record. -/
theorem front_eq_error {rest : Bytes} {error : IngestError} (h : front rest = .error error) :
    rest ≠ [] ∧ ((∃ len ∈ (claims rest).head?, maxCollectRecordBytes < len) ∨
      (∀ len ∈ claims rest, len ≤ maxCollectRecordBytes) ∧ takeRecord rest = none ∧
        splitRecords rest = .error error.message) := by
  unfold front at h
  rw [collectRecordHeaderBytes_eq] at h
  split at h
  · cases h
  next hne =>
  refine ⟨hne, ?_⟩
  split at h
  · next hshort =>
    cases h
    have hnone : takeRecord rest = none := if_pos hshort
    refine .inr ⟨?_, hnone, ?_⟩
    · rw [claims, if_pos hshort]
      simp
    · rw [splitRecords, if_neg hne, if_pos hshort, truncated, collectRecordHeaderBytes_eq, if_pos hshort]
  next hlong =>
  dsimp only at h
  split at h
  · next hmax =>
    refine .inl ⟨_, ?_, hmax⟩
    rw [claims, if_neg hlong]
    rfl
  next hmax =>
  split at h
  · next hcut =>
    cases h
    have hnone : takeRecord rest = none := by
      rw [takeRecord, if_neg hlong]
      exact if_pos hcut
    refine .inr ⟨?_, hnone, ?_⟩
    · rw [claims, if_neg hlong]
      dsimp only
      rw [if_pos hcut]
      simpa using hmax
    · rw [splitRecords, if_neg hne, if_neg hlong]
      dsimp only
      rw [if_pos hcut, truncated, collectRecordHeaderBytes_eq, if_neg hlong, List.length_drop]
  · cases h

/-- **The records of a batch.** However the transport and the decoder cut it, the reader hands out the whole records
at the front of the plain bytes, up to one that claims too much. It ends without an error exactly if nothing is left
over and no claim is too large, and its records are then what `split_records` returns. -/
theorem yields_records (z : Decoder δ) (decoder : δ) (compressed plain : Bytes) (chunks : List Bytes)
    (hz : Decodes z decoder compressed plain) (hchunks : chunks.flatten = compressed) :
    ∃ records outcome rest, Yields z (new decoder (chunks.map .ok)) records outcome ∧
      (∀ records' outcome', Yields z (new decoder (chunks.map .ok)) records' outcome' →
        records' = records ∧ outcome' = outcome) ∧
      plain = records.flatMap frameRecord ++ rest ∧ splitRecords (records.flatMap frameRecord) = .ok records ∧
      (outcome = .ok () → splitRecords plain = .ok records ∧ rest = []) ∧
      ((∃ error, outcome = .error error) ↔
        wholeRecordsLen plain < plain.length ∨ ∃ len ∈ claims plain, maxCollectRecordBytes < len) ∧
      (∀ error, outcome = .error error → takeRecord rest = none ∨ ∃ len ∈ (claims rest).head?,
        maxCollectRecordBytes < len) ∧
      ((∀ len ∈ claims plain, len ≤ maxCollectRecordBytes) →
        wholeRecordsLen plain = (records.flatMap frameRecord).length ∧
        ∀ error, outcome = .error error → splitRecords plain = .error error.message) := by
  have hholds : Holds z (new decoder (chunks.map .ok)) plain :=
    ⟨chunks, plain, rfl, rfl, by rwa [← hchunks] at hz⟩
  obtain ⟨records, rest, outcome, hyields, hplain, hmax, hstops⟩ := yields_of_holds hholds
  have hwords : ∀ record ∈ records, record.length < 2 ^ 32 := fun record hr =>
    (hmax record hr).trans_lt (by decide)
  have hsplit : splitRecords (records.flatMap frameRecord) = .ok records := by
    have happend : splitRecords (records.flatMap frameRecord ++ []) = (splitRecords []).map (records ++ ·) :=
      splitRecords_frames_append hwords
    rw [List.append_nil] at happend
    rw [happend, splitRecords]
    simp [Except.map]
  refine ⟨records, outcome, rest, hyields, fun _ _ h => hyields.unique h, hplain, hsplit, ?_⟩
  have hclaims : (∃ len ∈ claims plain, maxCollectRecordBytes < len) ↔ ∃ len ∈ claims rest,
    maxCollectRecordBytes < len := by
    rw [hplain, claims_frames_append hwords]
    constructor
    · rintro ⟨len, hlen, hover⟩
      rcases List.mem_append.mp hlen with hlen | hlen
      · obtain ⟨record, hr, rfl⟩ := List.mem_map.mp hlen
        exact absurd hover (not_lt.mpr (hmax record hr))
      · exact ⟨len, hlen, hover⟩
    · exact fun ⟨len, hlen, hover⟩ => ⟨len, List.mem_append.mpr (.inr hlen), hover⟩
  have hwhole : wholeRecordsLen plain = (records.flatMap frameRecord).length + wholeRecordsLen rest := by
    rw [hplain, wholeRecordsLen_frames_append hwords]
  have hlength : plain.length = (records.flatMap frameRecord).length + rest.length := by
    rw [hplain, List.length_append]
  rcases hstops with ⟨rfl, rfl⟩ | ⟨error, hfront, rfl⟩
  · have hnil : wholeRecordsLen [] = 0 := wholeRecordsLen_of_none rfl
    refine ⟨fun _ => ⟨by rw [hplain, List.append_nil, hsplit], rfl⟩, ⟨nofun, ?_⟩, nofun, fun _ =>
      ⟨by rw [hwhole, hnil]; rfl, nofun⟩⟩
    rintro (hless | hover)
    · rw [hwhole, hlength, hnil] at hless
      exact absurd hless (lt_irrefl _)
    · obtain ⟨len, hlen, -⟩ := hclaims.mp hover
      rw [claims] at hlen
      simp [recordHeaderBytes] at hlen
  · obtain ⟨hne, hcases⟩ := front_eq_error hfront
    refine ⟨nofun, ⟨fun _ => ?_, fun _ => ⟨error, rfl⟩⟩, fun _ _ => ?_, fun hnone => ?_⟩
    · rcases hcases with ⟨len, hlen, hover⟩ | ⟨-, hcut, -⟩
      · exact .inr (hclaims.mpr ⟨len, List.mem_of_mem_head? hlen, hover⟩)
      · refine .inl ?_
        rw [hwhole, hlength, wholeRecordsLen_of_none hcut]
        have := List.length_pos_of_ne_nil hne
        omega
    · exact hcases.symm.imp (fun h => h.2.1) id
    · rcases hcases with ⟨len, hlen, hover⟩ | ⟨-, hcut, herror⟩
      · obtain ⟨len, hlen, hover⟩ := hclaims.mpr ⟨len, List.mem_of_mem_head? hlen, hover⟩
        exact absurd hover (not_lt.mpr (hnone len hlen))
      · refine ⟨by rw [hwhole, wholeRecordsLen_of_none hcut]; rfl, ?_⟩
        rintro _ ⟨⟩
        rw [hplain, splitRecords_frames_append hwords, herror]
        rfl

/-- The start of a zstd frame: the magic number, and the descriptor of a single segment with one byte of content
size. -/
def frameStart : Bytes := [0x28, 0xb5, 0x2f, 0xfd, 0x20]

/-- What has arrived is the front of a frame of one last block that is not compressed. -/
def isRawFrame (arrived : Bytes) : Bool :=
  let blockHeader := Bytes.toNatLE ((arrived.drop 6).take 3)
  arrived.take 5 == frameStart.take arrived.length &&
    (arrived.length < 9 || blockHeader % 8 == 1 && arrived.length - 9 ≤ blockHeader / 8)

/-- A decoder of such frames, which hands out the bytes of the block as they arrive. -/
def rawBlock : Decoder Bytes where
  write arrived slice :=
    if isRawFrame (arrived ++ slice) then .ok (arrived ++ slice, slice.drop (9 - arrived.length))
    else .error "Unknown frame descriptor"
  flush arrived := .ok (arrived, [])

theorem feed_rawBlock {frame arrived : Bytes} {slices : List Bytes}
    (hframe : ∀ n ≤ frame.length, isRawFrame (frame.take n) = true)
    (h : arrived ++ slices.flatten = frame) :
    feed rawBlock arrived slices = .ok (frame, slices.flatten.drop (9 - arrived.length)) := by
  induction slices generalizing arrived with
  | nil =>
    rw [List.flatten_nil, List.append_nil] at h
    rw [feed, h, List.flatten_nil, List.drop_nil]
  | cons slice slices ih =>
    rw [List.flatten_cons, ← List.append_assoc] at h
    have hfront : isRawFrame (arrived ++ slice) = true := by
      have := hframe (arrived ++ slice).length (h ▸ (List.prefix_append ..).length_le)
      rwa [← h, List.take_left] at this
    have hwrite : rawBlock.write arrived slice = .ok (arrived ++ slice, slice.drop (9 - arrived.length)) :=
      if_pos hfront
    change (rawBlock.write arrived slice >>= _) = _
    rw [hwrite]
    change (feed rawBlock (arrived ++ slice) slices >>= _) = _
    rw [ih h, List.flatten_cons, List.drop_append, List.length_append, Nat.sub_add_eq]
    rfl

/-- What `zstd` makes of one record and a byte of the next. -/
def sampleFrame : Bytes := frameStart ++ [7] ++ [0x39, 0, 0] ++ [2, 0, 0, 0, 7, 8, 9]

theorem decodes_sampleFrame : Decodes rawBlock [] sampleFrame [2, 0, 0, 0, 7, 8, 9] := fun slices hslices =>
  ⟨sampleFrame, _, sampleFrame, [], feed_rawBlock (by decide) hslices, rfl, by rw [hslices]; rfl⟩

/-- The frame arrives in chunks that cut its header, and the header and the payload of the record. -/
theorem yields_records_cut : ∃ records outcome, Yields rawBlock
      (new [] ([[0x28, 0xb5], [0x2f, 0xfd, 0x20, 7, 0x39, 0, 0, 2, 0], [0, 0, 7], [8, 9]].map .ok)) records outcome ∧
    ∃ rest, [2, 0, 0, 0, 7, 8, 9] = records.flatMap frameRecord ++ rest := by
  obtain ⟨records, outcome, rest, hyields, -, hplain, -⟩ := yields_records rawBlock [] sampleFrame _
    [[0x28, 0xb5], [0x2f, 0xfd, 0x20, 7, 0x39, 0, 0, 2, 0], [0, 0, 7], [8, 9]] decodes_sampleFrame rfl
  exact ⟨records, outcome, hyields, rest, hplain⟩

end CollectedRecords

end Signy.Collect
