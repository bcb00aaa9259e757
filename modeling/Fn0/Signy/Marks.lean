/-
How far each collecty has got: the positions the journal remembers for every sender and signal, the file they
are kept in, and the records that carry them in the WAL.
-/
import Mathlib
import Fn0.Lib.Codec

namespace Signy

/-- `u64`; addition wraps. -/
abbrev U64 : Type := Fin (2 ^ 64)

def U64.bytes (n : U64) : Bytes := Bytes.ofNatLE 8 n.val

/-- `u64::from_le_bytes` on eight bytes. -/
def U64.ofBytes (bytes : Bytes) : U64 := Fin.ofNat (2 ^ 64) (Bytes.toNatLE bytes)

@[simp] theorem U64.length_bytes (n : U64) : n.bytes.length = 8 := by simp [U64.bytes]

@[simp] theorem U64.ofBytes_bytes (n : U64) : U64.ofBytes n.bytes = n := by
  have hlt : n.val < 256 ^ 8 := lt_of_lt_of_eq n.isLt (by norm_num)
  rw [U64.ofBytes, U64.bytes, Bytes.toNatLE_ofNatLE hlt]
  exact Fin.ofNat_val_eq_self n

def senderIdBytes : Nat := 16

/-- Which collecty a segment came from. -/
structure SenderId where
  bytes : Bytes
  length_eq : bytes.length = senderIdBytes
deriving DecidableEq, Repr

def SenderId.ofBytes? (bytes : Bytes) : Option SenderId :=
  if h : bytes.length = senderIdBytes then some ⟨bytes, h⟩ else none

@[simp] theorem SenderId.ofBytes?_bytes (sender : SenderId) : SenderId.ofBytes? sender.bytes = some sender := by
  simp [SenderId.ofBytes?, sender.length_eq]

inductive CollectSignal where
  | logs
  | traces
  | metrics
deriving DecidableEq, Repr

namespace CollectSignal

def all : List CollectSignal := [.logs, .traces, .metrics]

def tag : CollectSignal → UInt8
  | .logs => 1
  | .traces => 2
  | .metrics => 3

def fromTag (tag : UInt8) : Option CollectSignal := all.find? fun signal => signal.tag = tag

@[simp] theorem fromTag_tag (signal : CollectSignal) : fromTag signal.tag = some signal := by
  cases signal <;> rfl

end CollectSignal

/-- Where one of a sender's streams is up to: everything strictly before this point is stored. -/
@[ext]
structure Position where
  segment : U64
  records : U64
deriving DecidableEq, Repr

/-- The derived order: the segment first. -/
instance : LinearOrder Position :=
  LinearOrder.lift' (fun p => toLex (p.segment, p.records)) fun p q h => by
    have := toLex_inj.mp h
    exact Position.ext (congrArg Prod.fst this) (congrArg Prod.snd this)

def Position.start : Position := ⟨1, 0⟩

/-- A stream: one signal of one collecty. -/
abbrev Stream : Type := SenderId × CollectSignal

/-- One claim about one of a sender's streams. The source calls the position `at`. -/
structure CollectMark where
  sender : SenderId
  signal : CollectSignal
  position : Position
deriving DecidableEq, Repr

def CollectMark.stream (mark : CollectMark) : Stream := (mark.sender, mark.signal)

/-! ## The positions in memory -/

/-- A position and the time it was last touched, in nanoseconds since the epoch. -/
structure Seen where
  position : Position
  time : Nat
deriving DecidableEq, Repr

/-- The map of positions; its order is that of the list, where the source's is a hash map's. -/
structure CollectMarks where
  seen : AList fun _ : Stream => Seen

namespace CollectMarks

def empty : CollectMarks := ⟨∅⟩

def position (marks : CollectMarks) (stream : Stream) : Position :=
  match marks.seen.lookup stream with
  | some seen => seen.position
  | none => Position.start

/-- Only ever forward. -/
def advance (marks : CollectMarks) (mark : CollectMark) (now : Nat) : CollectMarks :=
  let seen := (marks.seen.lookup mark.stream).getD ⟨Position.start, 0⟩
  ⟨marks.seen.insert mark.stream ⟨max seen.position mark.position, now⟩⟩

def second : Nat := 10 ^ 9

/-- How long a collecty may stay silent before its positions are forgotten. -/
def forgetAfter : Nat := 7 * 24 * 60 * 60 * second

/-- Whether a position outlives a store at a time. -/
def Seen.live (now : Nat) (seen : Seen) : Bool :=
  if seen.time ≤ now then now - seen.time < forgetAfter else true

/-- What `store` forgets. -/
def retain (now : Nat) (marks : CollectMarks) : CollectMarks :=
  ⟨⟨marks.seen.entries.filter fun entry => Seen.live now entry.2,
    marks.seen.nodupKeys.sublist List.filter_sublist⟩⟩

theorem position_advance (marks : CollectMarks) (mark : CollectMark) (now : Nat) (stream : Stream) :
    (marks.advance mark now).position stream =
      if mark.stream = stream then max (marks.position stream) mark.position else marks.position stream := by
  by_cases h : mark.stream = stream
  · subst h
    rw [if_pos rfl]
    simp only [position, advance, AList.lookup_insert]
    cases marks.seen.lookup mark.stream <;> rfl
  · rw [if_neg h]
    simp only [position, advance, AList.lookup_insert_ne (Ne.symm h)]

/-! ## The marks file -/

def markEntryBytes : Nat := senderIdBytes + 1 + 8 + 8 + 8

def entryBytes (entry : Sigma fun _ : Stream => Seen) : Bytes :=
  entry.1.1.bytes ++ [entry.1.2.tag] ++ entry.2.position.segment.bytes ++ entry.2.position.records.bytes
    ++ Bytes.ofNatLE 8 (entry.2.time / second)

def loadEntry (bytes : Bytes) : Option (Sigma fun _ : Stream => Seen) := do
  let sender ← SenderId.ofBytes? (bytes.take senderIdBytes)
  let signal ← bytes[senderIdBytes]? >>= CollectSignal.fromTag
  let number (start : Nat) : Bytes := (bytes.drop start).take 8
  return ⟨(sender, signal), {
    position := ⟨U64.ofBytes (number (senderIdBytes + 1)), U64.ofBytes (number (senderIdBytes + 9))⟩
    time := Bytes.toNatLE (number (senderIdBytes + 17)) * second }⟩

/-- The loop of `load`; an entry with an unknown signal is passed over. -/
def loadEntries : Nat → Bytes → CollectMarks → CollectMarks
  | 0, _, marks => marks
  | count + 1, bytes, marks =>
    let marks := match loadEntry (bytes.take markEntryBytes) with
      | some entry => ⟨marks.seen.insert entry.1 entry.2⟩
      | none => marks
    loadEntries count (bytes.drop markEntryBytes) marks

@[simp] theorem length_entryBytes (entry : Sigma fun _ : Stream => Seen) :
    (entryBytes entry).length = markEntryBytes := by
  simp [entryBytes, entry.1.1.length_eq, markEntryBytes]

theorem loadEntry_entryBytes (entry : Sigma fun _ : Stream => Seen) :
    ∃ time, loadEntry (entryBytes entry) = some ⟨entry.1, ⟨entry.2.position, time⟩⟩ := by
  obtain ⟨⟨sender, signal⟩, position, time⟩ := entry
  have hid := sender.length_eq
  simp only [loadEntry, entryBytes, senderIdBytes] at *
  simp [List.drop_append, hid, List.drop_of_length_le, List.take_of_length_le]

section

variable (crc32 : Bytes → UInt32)

/-- The bytes `store` writes. -/
def image (marks : CollectMarks) : Bytes :=
  let body := Bytes.ofNatLE 4 marks.seen.entries.length ++ marks.seen.entries.flatMap entryBytes
  body ++ Bytes.ofNatLE 4 (crc32 body).toNat

/-- Anything unreadable is nothing. -/
def load (file : Option Bytes) : CollectMarks :=
  match file with
  | none => empty
  | some bytes =>
    if bytes.length < 8 then empty
    else
      let body := bytes.length - 4
      if (crc32 (bytes.take body)).toNat ≠ Bytes.toNatLE (bytes.drop body) then empty
      else
        let count := Bytes.toNatLE (bytes.take 4)
        if body ≠ 4 + count * markEntryBytes then empty
        else loadEntries count ((bytes.take body).drop 4) empty

/-- Loading entries that are new puts their positions in. -/
theorem position_loadEntries (entries : List (Sigma fun _ : Stream => Seen)) (hkeys : entries.NodupKeys)
    (marks : CollectMarks) (stream : Stream) :
    (loadEntries entries.length (entries.flatMap entryBytes) marks).position stream =
      match entries.dlookup stream with
      | some seen => seen.position
      | none => marks.position stream := by
  induction entries generalizing marks with
  | nil => rfl
  | cons entry entries ih =>
    obtain ⟨time, hload⟩ := loadEntry_entryBytes entry
    obtain ⟨hnew, hrest⟩ := List.nodupKeys_cons.mp hkeys
    have htake : ((entry :: entries).flatMap entryBytes).take markEntryBytes = entryBytes entry := by
      rw [List.flatMap_cons, ← length_entryBytes entry, List.take_left]
    have hdrop : ((entry :: entries).flatMap entryBytes).drop markEntryBytes = entries.flatMap entryBytes := by
      rw [List.flatMap_cons, ← length_entryBytes entry, List.drop_left]
    rw [List.length_cons, loadEntries, htake, hdrop, hload]
    dsimp only
    rw [ih hrest]
    obtain ⟨key, seen⟩ := entry
    by_cases hs : stream = key
    · subst hs
      rw [List.dlookup_eq_none.mpr hnew, List.dlookup_cons_eq]
      simp [position]
    · rw [List.dlookup_cons_ne _ _ hs]
      cases entries.dlookup stream with
      | some seen => rfl
      | none => simp [position, AList.lookup_insert_ne hs]

/-- **What `store` wrote, `load` reads back.** -/
theorem position_load_image (marks : CollectMarks) (hcount : marks.seen.entries.length < 2 ^ 32) (stream : Stream) :
    (load crc32 (some (image crc32 marks))).position stream = marks.position stream := by
  set entries := marks.seen.entries with hentries
  set body := Bytes.ofNatLE 4 entries.length ++ entries.flatMap entryBytes with hbody
  have hflat : (entries.flatMap entryBytes).length = entries.length * markEntryBytes := by
    simp [List.length_flatMap]
  have hlen : body.length = 4 + entries.length * markEntryBytes := by simp [hbody, hflat]
  have himage : image crc32 marks = body ++ Bytes.ofNatLE 4 (crc32 body).toNat := rfl
  have hstop : (image crc32 marks).length - 4 = body.length := by simp [himage]
  have htake : (image crc32 marks).take body.length = body := by rw [himage, List.take_left]
  have hdrop : (image crc32 marks).drop body.length = Bytes.ofNatLE 4 (crc32 body).toNat := by
    rw [himage, List.drop_left]
  have hcrc : Bytes.toNatLE (Bytes.ofNatLE 4 (crc32 body).toNat) = (crc32 body).toNat :=
    Bytes.toNatLE_ofNatLE (crc32 body).toNat_lt
  have hcount' : Bytes.toNatLE ((image crc32 marks).take 4) = entries.length := by
    have hfour : (image crc32 marks).take 4 = Bytes.ofNatLE 4 entries.length := by simp [himage, hbody]
    rw [hfour]
    exact Bytes.toNatLE_ofNatLE (by simpa using hcount)
  have hrest : body.drop 4 = entries.flatMap entryBytes := by simp [hbody]
  unfold load
  dsimp only
  rw [if_neg (by simp [himage, hlen]), hstop, htake, hdrop, hcrc, if_neg (by simp), hcount',
    if_neg (by simp [hlen]), hrest, position_loadEntries entries marks.seen.nodupKeys]
  rfl

end

end CollectMarks

/-! ## Mark records -/

/-- `LGYM`. -/
def markRecordMagic : Bytes := [76, 71, 89, 77]

def markRecordBytes : Nat := 4 + senderIdBytes + 1 + 8 + 8

def frameMark (mark : CollectMark) : Bytes :=
  markRecordMagic ++ mark.sender.bytes ++ [mark.signal.tag] ++ mark.position.segment.bytes
    ++ mark.position.records.bytes

def decodeMark (data : Bytes) : Option CollectMark :=
  if data.length ≠ markRecordBytes ∨ data.take 4 ≠ markRecordMagic then none
  else do
    let sender ← SenderId.ofBytes? ((data.drop 4).take senderIdBytes)
    let signal ← data[4 + senderIdBytes]? >>= CollectSignal.fromTag
    let number (start : Nat) : U64 := U64.ofBytes ((data.drop start).take 8)
    return ⟨sender, signal, ⟨number (4 + senderIdBytes + 1), number (4 + senderIdBytes + 9)⟩⟩

theorem length_frameMark (mark : CollectMark) : (frameMark mark).length = markRecordBytes := by
  simp [frameMark, markRecordMagic, mark.sender.length_eq, markRecordBytes, senderIdBytes]

theorem decodeMark_frameMark (mark : CollectMark) : decodeMark (frameMark mark) = some mark := by
  have hlen := length_frameMark mark
  have hid := mark.sender.length_eq
  have hmagic : (frameMark mark).take 4 = markRecordMagic := by simp [frameMark, markRecordMagic]
  unfold decodeMark
  rw [if_neg (by simp [hlen, hmagic])]
  simp only [frameMark, markRecordMagic, senderIdBytes] at *
  simp [List.drop_append, hid, List.drop_of_length_le, List.take_of_length_le]

end Signy
