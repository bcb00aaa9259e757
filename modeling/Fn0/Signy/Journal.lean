/-
The journal of signy: the records of the WAL, the writer that appends them in batches, the checkpoint, the
compaction of the WAL behind it, and the replay of what a crash left.

The files are those of one directory (`Names`): a rename or an unlink is on the disk for sure only when the
directory has been synced. What a file holds is taken as synced: every file is synced before its name is
changed to it, and a batch of the WAL before its appends are answered. A batch whose write stops half way is
one of the outcomes of a batch.

Each call that can fail has a name of its own. An operation runs with at most one call that fails, which may
have taken effect all the same.
-/
import Mathlib
import Fn0.Lib.Eff
import Fn0.Lib.Names
import Fn0.Signy.Marks

namespace Signy

/-! ## Tenants -/

def maxTenantIdBytes : Nat := 64

/-- `TenantId::parse`, without the identifier it makes. -/
def checkTenant (raw : String) : Except String Unit :=
  let bytes := (Bytes.ofString raw).length
  if bytes = 0 then .error "tenant id must not be empty"
  else if bytes > maxTenantIdBytes then
    .error s!"tenant id is {bytes} bytes, exceeding the maximum of {maxTenantIdBytes}"
  else
    match raw.toList.find? fun c => ¬ c.isAlphanum ∧ c ≠ '_' ∧ c ≠ '-' with
    | some invalid =>
      .error s!"tenant id contains the unsupported character {invalid.quote}; only [a-zA-Z0-9_-] is accepted"
    | none => .ok ()

structure TenantId where
  name : String
  valid : checkTenant name = .ok ()

namespace TenantId

def parse (raw : String) : Except String TenantId :=
  match h : checkTenant raw with
  | .ok () => .ok ⟨raw, h⟩
  | .error message => .error message

def bytes (tenant : TenantId) : Bytes := Bytes.ofString tenant.name

@[simp] theorem parse_name (tenant : TenantId) : parse tenant.name = .ok tenant := by
  unfold parse
  split
  · rfl
  next h => rw [tenant.valid] at h; cases h

theorem length_bytes_le (tenant : TenantId) : tenant.bytes.length ≤ maxTenantIdBytes := by
  have h := tenant.valid
  simp only [checkTenant] at h
  split at h
  · cases h
  · split at h
    · cases h
    · exact Nat.le_of_not_gt (by assumption)

end TenantId

/-! ## Records -/

def recordHeaderSize : Nat := 8

def maxRecordBytes : Nat := 256 * 1024 * 1024

/-- `LGY3`. -/
def tenantRecordMagic : Bytes := [76, 71, 89, 51]

def tenantRecordPrefixSize : Nat := tenantRecordMagic.length + 2

/-- The kinds of record that are written. -/
inductive RecordKind where
  | traces
  | otlpLogs
  | otlpMetrics
deriving DecidableEq, Repr

def RecordKind.byte : RecordKind → UInt8
  | .traces => 1
  | .otlpLogs => 2
  | .otlpMetrics => 3

section

variable {Row : Type}

/-- Decompressing, decoding and normalizing a payload: the rows it puts into the memtables. -/
abbrev Decode (Row : Type) : Type := TenantId → RecordKind → Bytes → Except String (List Row)

variable (decode : Decode Row)

/-- A record as the ingest hands it over, with the rows it has made of the payload. -/
structure Record where
  tenant : TenantId
  kind : RecordKind
  payload : Bytes
  rows : List Row
  decoded : decode tenant kind payload = .ok rows
  fits : tenantRecordPrefixSize + tenant.bytes.length + payload.length ≤ maxRecordBytes

/-- One append: a record, a mark, or both. -/
structure AppendItem where
  record : Option (Record decode)
  mark : Option CollectMark

variable {decode}

/-- The framed bytes of a record, `LGY3 | kind | tenant_len | tenant | payload`. -/
def Record.data (record : Record decode) : Bytes :=
  tenantRecordMagic ++ [record.kind.byte, UInt8.ofNat record.tenant.bytes.length] ++ record.tenant.bytes
    ++ record.payload

variable (decode) in
/-- What a record of the WAL is about. -/
inductive Entry where
  | record (r : Record decode)
  | mark (m : CollectMark)

namespace Entry

def data : Entry decode → Bytes
  | .record r => r.data
  | .mark m => frameMark m

def rows : Entry decode → List Row
  | .record r => r.rows
  | .mark _ => []

def mark? : Entry decode → Option CollectMark
  | .record _ => none
  | .mark m => some m

end Entry

/-- The marks of a batch so far and one more: the writer looks for the sender. -/
def mergeMark : List CollectMark → CollectMark → List CollectMark
  | [], mark => [mark]
  | seen :: rest, mark =>
    if seen.sender = mark.sender then { seen with position := max seen.position mark.position } :: rest
    else seen :: mergeMark rest mark

def batchMarks (batch : List (AppendItem decode)) : List CollectMark :=
  (batch.filterMap AppendItem.mark).foldl mergeMark []

/-- What a batch puts into the WAL: its records, then its marks. -/
def batchEntries (batch : List (AppendItem decode)) : List (Entry decode) :=
  (batch.filterMap AppendItem.record).map .record ++ (batchMarks batch).map .mark

def batchRows (batch : List (AppendItem decode)) : List Row :=
  (batch.filterMap AppendItem.record).flatMap Record.rows

variable (crc32 : Bytes → UInt32)

/-- `length | crc | data`. -/
def frame (data : Bytes) : Bytes := Bytes.ofNatLE 4 data.length ++ Bytes.ofNatLE 4 (crc32 data).toNat ++ data

def frames (entries : List (Entry decode)) : Bytes := entries.flatMap fun entry => frame crc32 entry.data

/-! ## Replay -/

/-- What replay fills in. -/
structure Replayed (Row : Type) where
  memtable : List Row
  marks : CollectMarks
  records : Nat

def decodeTenantRecord (data : Bytes) : Except String (Option (TenantId × UInt8 × Bytes)) :=
  if data.take tenantRecordMagic.length ≠ tenantRecordMagic then .ok none
  else if data.length < tenantRecordPrefixSize then .error "tenant journal record is truncated"
  else
    let kind := data.getD tenantRecordMagic.length 0
    let tenantEnd := tenantRecordPrefixSize + (data.getD (tenantRecordMagic.length + 1) 0).toNat
    if data.length < tenantEnd then .error "tenant journal record is truncated"
    else
      match Bytes.toString? ((data.take tenantEnd).drop tenantRecordPrefixSize) with
      | none => .error "tenant journal record has a non-UTF-8 tenant"
      | some name => do
        let tenant ← TenantId.parse name
        return some (tenant, kind, data.drop tenantEnd)

variable (decode) in
/-- The middle of the loop of `replay_from`: one record. -/
def replayRecord (now offset : Nat) (data : Bytes) (state : Replayed Row) : Except String (Replayed Row) :=
  match decodeMark data with
  | some mark => .ok { state with marks := state.marks.advance mark now }
  | none =>
    match decodeTenantRecord data with
    | .error message => .error s!"journal record invalid at offset {offset}: {message}"
    | .ok none =>
      .error (s!"journal record at offset {offset} has no tenant frame; that is a WAL from before tenant framing, " ++
        "and this engine versions nothing — delete the data directory and re-ingest")
    | .ok (some (tenant, kind, payload)) =>
      match [RecordKind.traces, .otlpLogs, .otlpMetrics].find? fun known => known.byte = kind with
      | some kind => do
        let rows ← decode tenant kind payload
        return { state with memtable := state.memtable ++ rows }
      | none =>
        if kind = 0 then
          .error (s!"journal record at offset {offset} is a Loki push record from before ingest became OTLP only; " ++
            "this engine versions nothing, so delete the data directory and re-ingest")
        else .error s!"unsupported tenant journal record kind {kind} at offset {offset}"

variable (decode) in
/-- The loop of `replay_from`, with the bytes behind `offset`. Returns the offset where it stopped. -/
def replayLoop (now fileLen offset : Nat) (rest : Bytes) (state : Replayed Row) :
    Except String (Nat × Replayed Row) :=
  if rest.length < recordHeaderSize then .ok (offset, state)
  else
    let len := Bytes.toNatLE (rest.take 4)
    let expected := Bytes.toNatLE ((rest.drop 4).take 4)
    let recordEnd := offset + recordHeaderSize + len
    if recordEnd > fileLen then .ok (offset, state)
    else if len > maxRecordBytes then
      .error s!"journal record at offset {offset} is too large: {len} bytes (maximum {maxRecordBytes})"
    else
      let data := (rest.drop recordHeaderSize).take len
      if (crc32 data).toNat ≠ expected then
        if recordEnd = fileLen then .ok (offset, state)
        else .error s!"journal record crc mismatch at offset {offset}"
      else do
        let state ← replayRecord decode now offset data state
        replayLoop now fileLen recordEnd (rest.drop (recordHeaderSize + len))
          { state with records := state.records + 1 }
termination_by rest.length
decreasing_by
  simp only [List.length_drop, recordHeaderSize] at *
  omega

variable (decode) in
def replayFrom (now : Nat) (wal : Option Bytes) (checkpoint : Nat) (state : Replayed Row) :
    Except String (Nat × Replayed Row) :=
  match wal with
  | none =>
    if checkpoint = 0 then .ok (0, state)
    else .error s!"journal checkpoint {checkpoint} exists but WAL is missing"
  | some bytes =>
    if checkpoint > bytes.length then
      .error s!"journal checkpoint {checkpoint} is beyond WAL length {bytes.length}"
    else if checkpoint = bytes.length then .ok (checkpoint, state)
    else replayLoop decode crc32 now bytes.length checkpoint (bytes.drop checkpoint) state

end

/-! ## Calls -/

inductive FileName where
  | wal
  | ckpt
  | state
  | tmp
  | marks
deriving DecidableEq, Repr

abbrev JournalFiles : Type := Names FileName

/-- The calls that replace a small file. -/
inductive Part where
  | write
  | sync
  | rename
  | syncDir
deriving DecidableEq, Repr

inductive Call where
  /-- `set_checkpoint`. -/
  | set (part : Part)
  /-- `compact_wal`, in the order of the calls. -/
  | syncWal
  | createTmp
  | copyTmp
  | syncTmp
  | intent (part : Part)
  | reset (part : Part)
  | rename
  | syncParent
  | reopen
  | removeState
  | syncRemoved
  /-- Restoring the old WAL and its checkpoint when the rename did not happen. -/
  | restore (part : Part)
  | removeTmp
  | removeRestored
  | syncRestored
  /-- The file of the marks. -/
  | marks (part : Part)
  /-- The start. -/
  | truncate
  | syncTruncated
  | openWal
  | syncOpened
  | syncOpenedDir
deriving DecidableEq, Repr

/-- The call of an operation that fails, and whether it took effect. -/
structure Fault where
  call : Call
  took : Bool
deriving DecidableEq, Repr

inductive JournalError where
  | io
  | invalidData (message : String)
  | invalidInput (message : String)
  | unexpectedEof (message : String)
  | brokenPipe
  | recovery (message : String)
deriving DecidableEq, Repr

structure Machine where
  files : JournalFiles
  fault : Option Fault

abbrev Op (α : Type) : Type := Eff JournalError Machine α

def Machine.setFiles (files : JournalFiles) (m : Machine) : Machine := { m with files }

def call (name : Call) (f : JournalFiles → JournalFiles) : Op Unit := do
  let m ← get
  match m.fault with
  | some fault =>
    if fault.call = name then do
      set (if fault.took then m.setFiles (f m.files) else m)
      throw .io
    else set (m.setFiles (f m.files))
  | none => set (m.setFiles (f m.files))

/-- Writing a file beside the one it replaces, syncing it, renaming it and syncing the directory. -/
def replaceFile (calls : Part → Call) (name : FileName) (bytes : Bytes) : Op Unit := do
  call (calls .write) id
  call (calls .sync) id
  call (calls .rename) (Names.replace name bytes)
  call (calls .syncDir) Names.sync

/-! ## The checkpoint -/

def readCheckpoint (files : JournalFiles) : Except JournalError Nat :=
  match files.read .ckpt with
  | none => .ok 0
  | some bytes =>
    if bytes.length ≠ 8 then
      .error (.invalidData s!"journal checkpoint must be exactly 8 bytes, got {bytes.length}")
    else .ok (Bytes.toNatLE bytes)

def writeCheckpoint (calls : Part → Call) (offset : Nat) : Op Unit :=
  replaceFile calls .ckpt (Bytes.ofNatLE 8 offset)

/-! ## Compaction -/

structure CompactionState where
  offset : Nat
  sourceLen : Nat
  retainedLen : Nat
deriving DecidableEq, Repr

def CompactionState.bytes (state : CompactionState) : Bytes :=
  Bytes.ofNatLE 8 state.offset ++ Bytes.ofNatLE 8 state.sourceLen ++ Bytes.ofNatLE 8 state.retainedLen

def readCompactionState (files : JournalFiles) : Except JournalError (Option CompactionState) :=
  match files.read .state with
  | none => .ok none
  | some bytes =>
    if bytes.length = 24 then .ok (some {
      offset := Bytes.toNatLE (bytes.take 8)
      sourceLen := Bytes.toNatLE ((bytes.drop 8).take 8)
      retainedLen := Bytes.toNatLE ((bytes.drop 16).take 8) })
    else .error (.invalidData "invalid WAL compaction state")

/-- `remove_compaction_state`. -/
def removeCompactionState : Op Unit := do
  let m ← get
  if (m.files.view .state).isNone then return ()
  else do
    call .removeState (Names.remove .state)
    call .syncRemoved Names.sync

/-- The old WAL and its checkpoint are put back; in `compact_wal` and at the start. -/
def restoreCompaction (state : CompactionState) : Op Unit := do
  writeCheckpoint .restore state.offset
  call .removeTmp (Names.remove .tmp)
  call .removeRestored (Names.remove .state)
  call .syncRestored Names.sync

/-- The open file of the writer and the length up to which it is good. -/
structure Writer where
  inode : Nat
  goodLen : Nat
deriving DecidableEq, Repr

/-- Opening the WAL for appending: its inode and its length. -/
def openWriter (files : JournalFiles) : Writer where
  inode := (files.view .wal).getD 0
  goodLen := ((files.read .wal).getD []).length

/-- `compact_wal` when no compaction is under way. -/
def compactFrom (offset : Nat) (writer : Writer) : Op Writer := do
  if offset > writer.goodLen then
    throw (.invalidInput s!"WAL compaction offset {offset} exceeds durable length {writer.goodLen}")
  else do
    call .syncWal id
    let retainedLen := writer.goodLen - offset
    call .createTmp (Names.create .tmp)
    let m ← get
    let copied := (((m.files.read .wal).getD []).drop offset).take retainedLen
    call .copyTmp (Names.write .tmp copied)
    if copied.length ≠ retainedLen then
      throw (.unexpectedEof s!"copied {copied.length} of {retainedLen} WAL bytes during compaction")
    else do
      call .syncTmp id
      let state : CompactionState := { offset, sourceLen := writer.goodLen, retainedLen }
      replaceFile .intent .state state.bytes
      writeCheckpoint .reset 0
      call .rename (Names.rename .tmp .wal)
      call .syncParent Names.sync
      call .reopen id
      let m ← get
      removeCompactionState
      return { inode := (openWriter m.files).inode, goodLen := retainedLen }

/-- `compact_wal`. -/
def compactWal (offset : Nat) (writer : Writer) : Op Writer := do
  let m ← get
  match readCompactionState m.files with
  | .error e => throw e
  | .ok none => compactFrom offset writer
  | .ok (some state) =>
    let walLen := ((m.files.read .wal).getD []).length
    if (m.files.view .tmp).isSome then
      if walLen < state.sourceLen then
        throw (.invalidData "source WAL is shorter than its recorded compaction length")
      else do
        restoreCompaction state
        compactFrom offset { writer with goodLen := walLen }
    else if walLen < state.retainedLen then
      throw (.invalidData "replacement WAL is shorter than its recorded suffix")
    else do
      call .syncParent Names.sync
      removeCompactionState
      call .reopen id
      let m ← get
      return openWriter m.files

/-! ## The start -/

/-- `recover_unfinished_compaction`. -/
def recoverUnfinishedCompaction : Op Unit := do
  let m ← get
  match readCompactionState m.files with
  | .error e => throw e
  | .ok none => return ()
  | .ok (some state) =>
    if (m.files.view .tmp).isNone then removeCompactionState
    else restoreCompaction state

/-- The end of `recover_with_marks`: a tail that could not be read is cut off. -/
def truncateTail (replayEnd : Nat) : Op Unit := do
  let m ← get
  let wal := (m.files.read .wal).getD []
  if replayEnd < wal.length then do
    call .truncate (Names.write .wal (wal.take replayEnd))
    call .syncTruncated id
  else return ()

/-- Opening the WAL in `spawn_with_marks`: it is made when it is not there. -/
def openWal : Op Writer := do
  call .openWal fun files => if (files.view .wal).isNone then files.replace .wal [] else files
  call .syncOpened id
  call .syncOpenedDir Names.sync
  let m ← get
  return openWriter m.files

section

variable {Row : Type} (decode : Decode Row) (crc32 : Bytes → UInt32)

/-- `replay_reporting`, the cut of the tail and the spawn of the writer. -/
def recover (now : Nat) : Op (Writer × Replayed Row) := do
  let m ← get
  let marks := CollectMarks.load crc32 (m.files.read .marks)
  recoverUnfinishedCompaction
  let m ← get
  match readCheckpoint m.files with
  | .error e => throw e
  | .ok checkpoint =>
    match replayFrom decode crc32 now (m.files.read .wal) checkpoint { memtable := [], marks, records := 0 } with
    | .error message => throw (.recovery message)
    | .ok (replayEnd, replayed) => do
      truncateTail replayEnd
      let writer ← openWal
      return (writer, replayed)

end

/-! ## The running journal -/

/-- The longest a file can get. -/
def maxFileLen : Nat := 2 ^ 63 - 1

/-- The outcome of the write of a batch: all of it is synced, or the WAL is cut back to where it was, or the
write stopped with `bytes` of it in the WAL and the writer is gone. -/
inductive BatchOutcome where
  | done
  | failed
  | torn (bytes : Nat)
deriving DecidableEq, Repr

/-- The offset the flush loop has from a checkpoint: its parts are being written, or it is to be retired, which
the loop asks for until it succeeds. -/
inductive Flush where
  | idle
  | taken (offset : Nat)
  | pending (offset : Nat)
deriving DecidableEq, Repr

/-- What is lost with the process. The writer goes when it is fenced. -/
structure Process (Row : Type) where
  writer : Option Writer
  marks : CollectMarks
  memtable : List Row
  flush : Flush

structure Journal (Row : Type) where
  files : JournalFiles
  process : Option (Process Row)

section

variable {Row : Type} {decode : Decode Row} (crc32 : Bytes → UInt32)

/-- A write that would make the file too long fails. -/
def BatchOutcome.within (outcome : BatchOutcome) (length : Nat) : BatchOutcome :=
  if length > maxFileLen then .failed else outcome

/-- One round of `writer_loop` with a batch. -/
def writeBatch (now : Nat) (batch : List (AppendItem decode)) (outcome : BatchOutcome) (j : Journal Row) :
    Journal Row :=
  match j.process with
  | none => j
  | some process =>
    match process.writer with
    | none => j
    | some writer =>
      let buffer := frames crc32 (batchEntries batch)
      let wal := j.files.content writer.inode
      match outcome.within (wal.length + buffer.length) with
      | .done =>
        { files := j.files.setContent writer.inode (wal ++ buffer)
          process := some { process with
            writer := some { writer with goodLen := writer.goodLen + buffer.length }
            marks := (batchMarks batch).foldl (fun marks mark => marks.advance mark now) process.marks
            memtable := process.memtable ++ batchRows batch } }
      | .failed => { j with files := j.files.setContent writer.inode (wal.take writer.goodLen) }
      | .torn bytes =>
        { files := j.files.setContent writer.inode (wal ++ buffer.take bytes)
          process := some { process with writer := none } }

/-- A checkpoint; the flush loop asks for one when it has no offset. The writer is fenced when it cannot sync
the WAL; when it cannot write the marks it goes on. -/
def checkpoint (now : Nat) (fault : Option Fault) (j : Journal Row) : Journal Row :=
  match j.process with
  | none => j
  | some process =>
    match process.writer, process.flush with
    | some writer, .idle =>
      match (call .syncWal id).exec { files := j.files, fault } with
      | (.error _, m) => { files := m.files, process := some { process with writer := none } }
      | (.ok _, m) =>
        let marks := process.marks.retain now
        let m := ((replaceFile .marks .marks (marks.image crc32)).exec m).2
        { files := m.files, process := some { process with marks, flush := .taken writer.goodLen } }
    | _, _ => j

/-- The flush loop gives its offset up: the parts could not be written. -/
def abandon (j : Journal Row) : Journal Row :=
  match j.process with
  | some process =>
    match process.flush with
    | .taken _ => { j with process := some { process with flush := .idle } }
    | _ => j
  | none => j

def Flush.offset? : Flush → Option Nat
  | .idle => none
  | .taken offset => some offset
  | .pending offset => some offset

/-- `set_checkpoint`. -/
def setCheckpoint (fault : Option Fault) (j : Journal Row) : Journal Row :=
  match j.process with
  | none => j
  | some process =>
    match process.flush.offset? with
    | none => j
    | some offset =>
      match (writeCheckpoint .set offset).exec { files := j.files, fault } with
      | (.ok _, m) => { files := m.files, process := some { process with flush := .idle } }
      | (.error _, m) => { files := m.files, process := some { process with flush := .pending offset } }

/-- `compact_checkpoint`. When it fails the writer opens the WAL again; it is fenced when it cannot. -/
def compactCheckpoint (fault : Option Fault) (reopens : Bool) (j : Journal Row) : Journal Row :=
  match j.process with
  | none => j
  | some process =>
    match process.flush.offset? with
    | none => j
    | some offset =>
      match process.writer with
      | none => { j with process := some { process with flush := .pending offset } }
      | some writer =>
        match (compactWal offset writer).exec { files := j.files, fault } with
        | (.ok writer, m) =>
          { files := m.files, process := some { process with writer := some writer, flush := .idle } }
        | (.error _, m) =>
          { files := m.files
            process := some { process with
              writer := if reopens then some (openWriter m.files) else none
              flush := .pending offset } }

/-- The process is gone; `mask` says which changes of entries reached the disk. -/
def crash (mask : List Bool) (j : Journal Row) : Journal Row :=
  { files := j.files.crash mask, process := none }

/-- A start; when it fails there is no process. -/
def start (decode : Decode Row) (now : Nat) (fault : Option Fault) (j : Journal Row) : Journal Row :=
  match j.process with
  | some _ => j
  | none =>
    match (recover decode crc32 now).exec { files := j.files, fault } with
    | (.ok (writer, replayed), m) =>
      { files := m.files
        process :=
          some { writer := some writer, marks := replayed.marks, memtable := replayed.memtable, flush := .idle } }
    | (.error _, m) => { files := m.files, process := none }

inductive Action (decode : Decode Row) where
  | batch (now : Nat) (batch : List (AppendItem decode)) (outcome : BatchOutcome)
  | checkpoint (now : Nat) (fault : Option Fault)
  | abandon
  | setCheckpoint (fault : Option Fault)
  | compactCheckpoint (fault : Option Fault) (reopens : Bool)
  | start (now : Nat) (fault : Option Fault)

/-- What happens to a journal: an action, and then the machine may go down. -/
structure Event (decode : Decode Row) where
  action : Action decode
  down : Option (List Bool)

def Journal.act (j : Journal Row) : Action decode → Journal Row
  | .batch now batch outcome => writeBatch crc32 now batch outcome j
  | .checkpoint now fault => Signy.checkpoint crc32 now fault j
  | .abandon => Signy.abandon j
  | .setCheckpoint fault => Signy.setCheckpoint fault j
  | .compactCheckpoint fault reopens => Signy.compactCheckpoint fault reopens j
  | .start now fault => Signy.start crc32 decode now fault j

def Journal.next (j : Journal Row) (event : Event decode) : Journal Row :=
  match event.down with
  | none => j.act crc32 event.action
  | some mask => crash mask (j.act crc32 event.action)

end

end Signy
