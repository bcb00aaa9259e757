/-
What replay makes of a WAL: of whole records it reads back every one in order, and it stops without an error
at a record that was cut off.
-/
import Mathlib
import Fn0.Signy.Journal

namespace Signy

variable {Row : Type} {decode : Decode Row} (crc32 : Bytes → UInt32)

/-! ## One record -/

theorem Record.length_data (r : Record decode) : r.data.length ≤ maxRecordBytes := by
  have := r.fits
  simp only [Record.data, List.length_append, List.length_cons, List.length_nil]
  simp only [tenantRecordPrefixSize] at this
  omega

theorem Entry.length_data (entry : Entry decode) : entry.data.length ≤ maxRecordBytes := by
  cases entry with
  | record r => exact r.length_data
  | mark m =>
    have := length_frameMark m
    simp only [Entry.data, this, markRecordBytes, senderIdBytes, maxRecordBytes]
    omega

theorem decodeTenantRecord_data (r : Record decode) :
    decodeTenantRecord r.data = .ok (some (r.tenant, r.kind.byte, r.payload)) := by
  have hlen := r.tenant.length_bytes_le
  have hbyte : (UInt8.ofNat r.tenant.bytes.length).toNat = r.tenant.bytes.length := by
    rw [UInt8.toNat_ofNat']
    exact Nat.mod_eq_of_lt (by simp only [maxTenantIdBytes] at hlen; omega)
  have hname : Bytes.toString? r.tenant.bytes = some r.tenant.name := Bytes.toString?_ofString _
  have hsix : r.data.drop 6 = r.tenant.bytes ++ r.payload := by simp [Record.data, tenantRecordMagic]
  have hend : (r.data.take (6 + r.tenant.bytes.length)).drop 6 = r.tenant.bytes := by
    rw [List.drop_take, hsix, Nat.add_sub_cancel_left, List.take_left]
  have hrest : r.data.drop (6 + r.tenant.bytes.length) = r.payload := by
    rw [← List.drop_drop, hsix, List.drop_left]
  have hkind : r.data.getD 4 0 = r.kind.byte := by simp [Record.data, tenantRecordMagic]
  have hcount : (r.data.getD 5 0).toNat = r.tenant.bytes.length := by
    simp only [Record.data, tenantRecordMagic, List.cons_append, List.nil_append, List.getD_cons_succ,
      List.getD_cons_zero, hbyte]
  have hlong : 6 + r.tenant.bytes.length ≤ r.data.length := by simp [Record.data, tenantRecordMagic]; omega
  have hmagic : r.data.take 4 = tenantRecordMagic := by simp [Record.data, tenantRecordMagic]
  unfold decodeTenantRecord
  simp only [show tenantRecordMagic.length = 4 from rfl, tenantRecordPrefixSize, hmagic, hkind, hcount, hend, hrest,
    hname, TenantId.parse_name]
  rw [if_neg (by simp), if_neg (by omega), if_neg (by omega)]
  rfl

theorem decodeMark_data (r : Record decode) : decodeMark r.data = none := by
  have hmagic : r.data.take 4 = tenantRecordMagic := by simp [Record.data, tenantRecordMagic]
  unfold decodeMark
  rw [if_pos (.inr (by rw [hmagic]; decide))]

/-- What a record adds. -/
def Replayed.add (now : Nat) (state : Replayed Row) (entry : Entry decode) : Replayed Row where
  memtable := state.memtable ++ entry.rows
  marks := match entry.mark? with
    | some mark => state.marks.advance mark now
    | none => state.marks
  records := state.records + 1

theorem replayRecord_data (now offset : Nat) (entry : Entry decode) (state : Replayed Row) :
    ∃ state', replayRecord decode now offset entry.data state = .ok state' ∧
      { state' with records := state'.records + 1 } = state.add now entry := by
  cases entry with
  | mark m =>
    refine ⟨{ state with marks := state.marks.advance m now }, ?_, ?_⟩
    · simp [replayRecord, Entry.data, decodeMark_frameMark]
    · simp [Replayed.add, Entry.rows, Entry.mark?]
  | record r =>
    refine ⟨{ state with memtable := state.memtable ++ r.rows }, ?_, ?_⟩
    · have hkind : [RecordKind.traces, .otlpLogs, .otlpMetrics].find? (fun known => known.byte = r.kind.byte) =
          some r.kind := by cases r.kind <;> rfl
      simp only [replayRecord, Entry.data, decodeMark_data, decodeTenantRecord_data, hkind, r.decoded]
      rfl
    · simp [Replayed.add, Entry.rows, Entry.mark?]

/-! ## A WAL -/

/-- The bytes some records take in the WAL. -/
def size (entries : List (Entry decode)) : Nat := (frames crc32 entries).length

theorem frames_append (a b : List (Entry decode)) : frames crc32 (a ++ b) = frames crc32 a ++ frames crc32 b := by
  simp [frames]

theorem size_append (a b : List (Entry decode)) : size crc32 (a ++ b) = size crc32 a + size crc32 b := by
  simp [size, frames_append]

theorem length_frame (data : Bytes) : (frame crc32 data).length = recordHeaderSize + data.length := by
  simp [frame, recordHeaderSize]
  omega

/-- A record that was cut off, or nothing. -/
def Torn (tail : Bytes) : Prop :=
  tail = [] ∨ ∃ data rest, data.length ≤ maxRecordBytes ∧ rest ≠ [] ∧ frame crc32 data = tail ++ rest

theorem toNatLE_frame (data rest : Bytes) (h : data.length ≤ maxRecordBytes) :
    Bytes.toNatLE ((frame crc32 data ++ rest).take 4) = data.length := by
  have htake : (frame crc32 data ++ rest).take 4 = Bytes.ofNatLE 4 data.length := by
    simp [frame]
  rw [htake]
  exact Bytes.toNatLE_ofNatLE (by simp only [maxRecordBytes] at h; omega)

/-- Replay stops at a record that was cut off. -/
theorem replayLoop_torn {tail : Bytes} (htail : Torn crc32 tail) (now offset : Nat) (state : Replayed Row) :
    replayLoop decode crc32 now (offset + tail.length) offset tail state = .ok (offset, state) := by
  rw [replayLoop]
  split
  · rfl
  next hlong =>
    rcases htail with rfl | ⟨data, rest, hdata, hrest, hframe⟩
    · simp [recordHeaderSize] at hlong
    · have hpos : 0 < rest.length := List.length_pos_iff.mpr hrest
      have hlen := congrArg List.length hframe
      rw [length_frame, List.length_append] at hlen
      have htake : tail.take 4 = (frame crc32 data ++ []).take 4 := by
        rw [List.append_nil, hframe, List.take_append_of_le_length]
        simp only [recordHeaderSize] at hlong
        omega
      dsimp only
      rw [htake, toNatLE_frame crc32 data [] hdata, if_pos (by omega)]

/-- **Replay reads whole records back in order.** -/
theorem replayLoop_frames {tail : Bytes} (htail : Torn crc32 tail) (now : Nat) (entries : List (Entry decode))
    (offset : Nat) (state : Replayed Row) :
    replayLoop decode crc32 now (offset + size crc32 entries + tail.length) offset (frames crc32 entries ++ tail) state
      = .ok (offset + size crc32 entries, entries.foldl (Replayed.add now) state) := by
  induction entries generalizing offset state with
  | nil => simpa [size, frames] using replayLoop_torn crc32 htail now offset state
  | cons entry entries ih =>
    have hdata := entry.length_data
    have hbytes : frames crc32 (entry :: entries) ++ tail =
        frame crc32 entry.data ++ (frames crc32 entries ++ tail) := by simp [frames]
    have hsize : size crc32 (entry :: entries) = recordHeaderSize + entry.data.length + size crc32 entries := by
      simp [size, frames, length_frame]
    have hheader : recordHeaderSize ≤ (frame crc32 entry.data ++ (frames crc32 entries ++ tail)).length := by
      simp only [List.length_append, length_frame]
      omega
    have hcrc : Bytes.toNatLE (((frame crc32 entry.data ++ (frames crc32 entries ++ tail)).drop 4).take 4) =
        (crc32 entry.data).toNat := by
      have htake : ((frame crc32 entry.data ++ (frames crc32 entries ++ tail)).drop 4).take 4 =
          Bytes.ofNatLE 4 (crc32 entry.data).toNat := by simp [frame]
      rw [htake]
      exact Bytes.toNatLE_ofNatLE (crc32 entry.data).toNat_lt
    have hbody : ((frame crc32 entry.data ++ (frames crc32 entries ++ tail)).drop recordHeaderSize).take
        entry.data.length = entry.data := by
      rw [frame, List.append_assoc, List.drop_left' (by simp [recordHeaderSize]), List.take_left]
    have hnext : (frame crc32 entry.data ++ (frames crc32 entries ++ tail)).drop
        (recordHeaderSize + entry.data.length) = frames crc32 entries ++ tail := by
      rw [← length_frame crc32, List.drop_left]
    obtain ⟨state', hreplay, hadd⟩ := replayRecord_data now offset entry state
    rw [hbytes, hsize, replayLoop, if_neg (by omega)]
    dsimp only
    rw [toNatLE_frame crc32 _ _ hdata, if_neg (by omega), if_neg (by omega), hcrc, hbody, if_neg (by simp), hreplay,
      hnext]
    have hih := ih (offset + recordHeaderSize + entry.data.length) (state.add now entry)
    rw [← hadd] at hih
    simp only [List.foldl_cons, ← hadd, ← Nat.add_assoc] at hih ⊢
    exact hih

end Signy
