/-
The disk queue of the collector (collecty/src/queue, with the record framing of collecty/src/wire.rs): one
stream of numbered segment files per signal.

A segment file is described by what the directory and the decompressor say of it: its length, its time, the
plain bytes that decompress out of it and whether the stream ends properly. What zstd makes of the bytes it
takes is not modelled; how many bytes it hands to the file at each call is part of the call's outcome. Every
call that can fail takes its outcome from a list the caller of an operation supplies (`Faults`), in the order
in which the calls are made. Segment numbers are `u64` in the source and natural numbers here: they are taken
to stay below `2^64 - 1`, so that `open` can add one to the last of them.

Three fields are written and never read: `created`, the numbers a directory's segments were given while the
identity file was kept, `appended`, the records whose append returned without an error, and `underflow`, set
when a subtraction of byte counts goes below zero.
-/
import Mathlib
import Fn0.Lib.Bytes
import Fn0.Lib.Eff

namespace Collecty

/-! ## Signals and records -/

inductive Signal where
  | logs
  | traces
  | metrics
deriving DecidableEq, Repr

def Signal.all : List Signal := [.logs, .traces, .metrics]

def Signal.index : Signal → Nat
  | .logs => 0
  | .traces => 1
  | .metrics => 2

def recordHeaderBytes : Nat := 4

/-- A record as it goes into a segment. The length is written as an `u32`. -/
def frameRecord (payload : Bytes) : Bytes := Bytes.ofNatLE recordHeaderBytes payload.length ++ payload

/-- The record at the front: its payload and what is behind it. -/
def takeRecord (plain : Bytes) : Option (Bytes × Bytes) :=
  if plain.length < recordHeaderBytes then none
  else
    let len := Bytes.toNatLE (plain.take recordHeaderBytes)
    let rest := plain.drop recordHeaderBytes
    if rest.length < len then none else some (rest.take len, rest.drop len)

theorem takeRecord_length {plain payload rest : Bytes} (h : takeRecord plain = some (payload, rest)) :
    plain.length = recordHeaderBytes + payload.length + rest.length := by
  unfold takeRecord at h
  split at h
  · cases h
  · dsimp only at h
    split at h
    · cases h
    · simp only [Option.some.injEq, Prod.mk.injEq] at h
      obtain ⟨rfl, rfl⟩ := h
      simp only [List.length_take, List.length_drop] at *
      omega

/-- The payloads of the records in `plain`; `none` when the last one is cut short. -/
def splitRecords (plain : Bytes) : Option (List Bytes) :=
  if plain = [] then some []
  else match h : takeRecord plain with
    | none => none
    | some (payload, rest) =>
      have : rest.length < plain.length := by
        have := takeRecord_length h
        simp only [recordHeaderBytes] at this
        omega
      (splitRecords rest).map (payload :: ·)
termination_by plain.length

/-- How much of `plain` is whole records. -/
def wholeRecordsLen (plain : Bytes) : Nat :=
  match h : takeRecord plain with
  | none => 0
  | some (payload, rest) =>
    have : rest.length < plain.length := by
      have := takeRecord_length h
      simp only [recordHeaderBytes] at this
      omega
    recordHeaderBytes + payload.length + wholeRecordsLen rest
termination_by plain.length

/-! ## Files -/

/-- A segment file. While it is being written `plain` and `whole` say nothing: what is readable in it is
settled by the crash that leaves it behind. -/
structure File where
  bytes : Nat
  modified : Nat
  plain : Bytes
  whole : Bool
deriving DecidableEq, Repr

/-- A signal's directory: the files by number. -/
abbrev Dir : Type := Std.ExtTreeMap Nat File compare

abbrev SenderId : Type := Bytes

structure Disk where
  identity : Option SenderId
  dirs : Signal → Dir

def Disk.modifyDir (signal : Signal) (f : Dir → Dir) (disk : Disk) : Disk :=
  { disk with dirs := Function.update disk.dirs signal (f (disk.dirs signal)) }

structure SegmentFile where
  seq : Nat
  bytes : Nat
  modified : Nat
deriving DecidableEq, Repr

/-- `segment::list`: sorted by number. -/
def list (dir : Dir) : List SegmentFile :=
  dir.toList.map fun (seq, file) => { seq, bytes := file.bytes, modified := file.modified }

/-! ## The state of an open queue -/

structure QueueLimits where
  maxBytes : Nat
  maxSegmentBytes : Nat
  maxSegmentAge : Nat
deriving DecidableEq, Repr

structure QueueStats where
  queuedBytes : Nat
  appendedRecords : Nat
  appendedBytes : Nat
  droppedBytes : Nat
  droppedSegments : Nat
  underflow : Bool := false
deriving DecidableEq, Repr

/-- The subtraction `a - b` of the source is made. -/
def QueueStats.checkSub (a b : Nat) (stats : QueueStats) : QueueStats :=
  { stats with underflow := stats.underflow || decide (a < b) }

structure Held where
  seq : Nat
  bytes : Nat
  stamp : Nat
deriving DecidableEq, Repr

/-- The compressor of an open segment and its file: the plain bytes it has taken, and what it has handed to
the file. -/
structure Stream where
  seq : Nat
  plain : Bytes
  written : Nat
deriving DecidableEq, Repr

/-- One signal's segments. The source keeps one deque that always ends in the segment being written; here
that one is `back` and the ones in front of it are `closed`. `active` is the inside of the `SegmentWriter`,
which `finish` takes out. -/
structure SignalQueue where
  closed : List Held
  back : Held
  active : Option Stream
  activeSince : Option Nat
deriving DecidableEq, Repr

def SignalQueue.segments (queue : SignalQueue) : List Held := queue.closed ++ [queue.back]

/-- `SegmentWriter::written`. -/
def SignalQueue.written (queue : SignalQueue) : Nat :=
  match queue.active with
  | some stream => stream.written
  | none => 0

structure Inner where
  signals : Signal → SignalQueue
  stamped : Nat
  stats : QueueStats

def Inner.setSignal (signal : Signal) (queue : SignalQueue) (inner : Inner) : Inner :=
  { inner with signals := Function.update inner.signals signal queue }

inductive QueueError where
  | invalidInput (message : String)
  | brokenPipe (message : String)
  | io
  /-- Not an error of the source: the loop that makes room never ends. -/
  | spinning
deriving DecidableEq, Repr

/-! ## What the file system answers -/

/-- The outcome of a `write_all` on the compressor, with the bytes it handed to the file. A call that fails
may have taken some of the bytes, never all of them. -/
inductive WriteOutcome where
  | done (emitted : Nat)
  | failed (taken emitted : Nat)
deriving DecidableEq, Repr

inductive FinishOutcome where
  | done (emitted : Nat)
  | failed
deriving DecidableEq, Repr

/-- The outcome of creating a segment; a call that fails may have made the file. -/
inductive CreateOutcome where
  | done
  | failed (made : Bool)
deriving DecidableEq, Repr

inductive RemoveOutcome where
  | done
  | failed
deriving DecidableEq, Repr

/-- The outcomes of an operation's calls, each list in the order of the calls. Where a list ends, the calls
succeed. -/
structure Faults where
  headers : List WriteOutcome := []
  payloads : List WriteOutcome := []
  finishes : List FinishOutcome := []
  creates : List CreateOutcome := []
  removes : List RemoveOutcome := []
deriving DecidableEq, Repr

structure Host where
  disk : Disk
  inner : Inner
  faults : Faults
  now : Nat
  instant : Nat
  created : Signal → List Nat
  appended : Signal → List (Nat × Bytes)

abbrev Op (α : Type) : Type := Eff QueueError Host α

namespace Host

def queue (h : Host) (signal : Signal) : SignalQueue := h.inner.signals signal

def setQueue (signal : Signal) (queue : SignalQueue) (h : Host) : Host :=
  { h with inner := h.inner.setSignal signal queue }

def setFile (signal : Signal) (seq : Nat) (file : File) (h : Host) : Host :=
  { h with disk := h.disk.modifyDir signal (·.insert seq file) }

def removeFile (signal : Signal) (seq : Nat) (h : Host) : Host :=
  { h with disk := h.disk.modifyDir signal (·.erase seq) }

/-- A segment that has just been created: an empty file, and its number in the history. -/
def makeFile (signal : Signal) (seq : Nat) (h : Host) : Host :=
  { h.setFile signal seq ⟨0, h.now, [], false⟩ with
    created := Function.update h.created signal (h.created signal ++ [seq]) }

def modifyStats (f : QueueStats → QueueStats) (h : Host) : Host :=
  { h with inner := { h.inner with stats := f h.inner.stats } }

def setFaults (faults : Faults) (h : Host) : Host := { h with faults }

section Updates

variable (h : Host) (signal : Signal) (seq : Nat) (file : File) (queue : SignalQueue) (faults : Faults)
  (f : QueueStats → QueueStats)

@[simp] theorem queue_setQueue_self : (h.setQueue signal queue).queue signal = queue := by
  simp [Host.queue, setQueue, Inner.setSignal]

theorem queue_setQueue_ne {signal' : Signal} (hne : signal' ≠ signal) :
    (h.setQueue signal queue).queue signal' = h.queue signal' := by
  simp [Host.queue, setQueue, Inner.setSignal, hne]

@[simp] theorem dirs_setFile_self :
    (h.setFile signal seq file).disk.dirs signal = (h.disk.dirs signal).insert seq file := by
  simp [setFile, Disk.modifyDir]

theorem dirs_setFile_ne {signal' : Signal} (hne : signal' ≠ signal) :
    (h.setFile signal seq file).disk.dirs signal' = h.disk.dirs signal' := by
  simp [setFile, Disk.modifyDir, hne]

@[simp] theorem dirs_removeFile_self :
    (h.removeFile signal seq).disk.dirs signal = (h.disk.dirs signal).erase seq := by
  simp [removeFile, Disk.modifyDir]

theorem dirs_removeFile_ne {signal' : Signal} (hne : signal' ≠ signal) :
    (h.removeFile signal seq).disk.dirs signal' = h.disk.dirs signal' := by
  simp [removeFile, Disk.modifyDir, hne]

@[simp] theorem dirs_makeFile_self :
    (h.makeFile signal seq).disk.dirs signal = (h.disk.dirs signal).insert seq ⟨0, h.now, [], false⟩ := by
  simp [makeFile]

theorem dirs_makeFile_ne {signal' : Signal} (hne : signal' ≠ signal) :
    (h.makeFile signal seq).disk.dirs signal' = h.disk.dirs signal' := by
  simp [makeFile, dirs_setFile_ne _ _ _ _ hne]

@[simp] theorem created_makeFile_self : (h.makeFile signal seq).created signal = h.created signal ++ [seq] := by
  simp [makeFile]

theorem created_makeFile_ne {signal' : Signal} (hne : signal' ≠ signal) :
    (h.makeFile signal seq).created signal' = h.created signal' := by
  simp [makeFile, hne]

@[simp] theorem appended_setQueue : (h.setQueue signal queue).appended = h.appended := rfl
@[simp] theorem appended_setFile : (h.setFile signal seq file).appended = h.appended := rfl
@[simp] theorem disk_setQueue : (h.setQueue signal queue).disk = h.disk := rfl
@[simp] theorem created_setQueue : (h.setQueue signal queue).created = h.created := rfl
@[simp] theorem queue_setFile : (h.setFile signal seq file).queue = h.queue := rfl
@[simp] theorem queue_removeFile : (h.removeFile signal seq).queue = h.queue := rfl
@[simp] theorem created_removeFile : (h.removeFile signal seq).created = h.created := rfl
@[simp] theorem queue_makeFile : (h.makeFile signal seq).queue = h.queue := rfl
@[simp] theorem queue_modifyStats : (h.modifyStats f).queue = h.queue := rfl
@[simp] theorem disk_modifyStats : (h.modifyStats f).disk = h.disk := rfl
@[simp] theorem created_modifyStats : (h.modifyStats f).created = h.created := rfl
@[simp] theorem queue_setFaults : (h.setFaults faults).queue = h.queue := rfl
@[simp] theorem disk_setFaults : (h.setFaults faults).disk = h.disk := rfl
@[simp] theorem created_setFaults : (h.setFaults faults).created = h.created := rfl

end Updates

end Host

/-! ## The segment writer -/

def closedError : QueueError := .brokenPipe "the segment is already closed"

/-- What a write left in the compressor and in the file. -/
def emit (signal : Signal) (stream : Stream) (taken : Bytes) (emitted : Nat) : Op Unit :=
  modify fun h =>
    let stream := { stream with plain := stream.plain ++ taken, written := stream.written + emitted }
    (h.setQueue signal { h.queue signal with active := some stream }).setFile signal stream.seq
      ⟨stream.written, h.now, [], false⟩

/-- `write_all` on the active segment, with the outcome of the call. An empty buffer is no call. -/
def writeAll (signal : Signal) (plain : Bytes) (outcome : WriteOutcome) : Op Unit := do
  let h ← get
  match (h.queue signal).active with
  | none => throw closedError
  | some stream =>
    match outcome with
    | .done emitted => emit signal stream plain emitted
    | .failed taken emitted => do
      emit signal stream (plain.take (min taken (plain.length - 1))) emitted
      throw .io

/-- The write of a record's length. -/
def writeHeader (signal : Signal) (header : Bytes) : Op Unit := do
  let h ← get
  set (h.setFaults { h.faults with headers := h.faults.headers.tail })
  writeAll signal header (h.faults.headers.headD (.done 0))

/-- The write of a piece of a record's payload. -/
def writePayload (signal : Signal) (chunk : Bytes) : Op Unit := do
  let h ← get
  if chunk = [] then writeAll signal chunk (.done 0)
  else do
    set (h.setFaults { h.faults with payloads := h.faults.payloads.tail })
    writeAll signal chunk (h.faults.payloads.headD (.done 0))

/-- `SegmentWriter::finish`: the stream is taken out whatever happens. -/
def finish (signal : Signal) : Op Nat := do
  let h ← get
  match (h.queue signal).active with
  | none => throw closedError
  | some stream => do
    set ((h.setQueue signal { h.queue signal with active := none }).setFaults
      { h.faults with finishes := h.faults.finishes.tail })
    match h.faults.finishes.headD (.done 0) with
    | .done emitted => do
      let bytes := stream.written + emitted
      modify fun h => h.setFile signal stream.seq ⟨bytes, h.now, stream.plain, true⟩
      return bytes
    | .failed => throw .io

/-- A writer for a segment that has just been created. -/
def startSegment (signal : Signal) (seq : Nat) (h : Host) : Host :=
  h.setQueue signal { h.queue signal with active := some { seq, plain := [], written := 0 } }

/-- `SegmentWriter::reusing`, and the assignment of the writer it returns. -/
def reusing (signal : Signal) (seq : Nat) : Op Unit := do
  let h ← get
  set (h.setFaults { h.faults with creates := h.faults.creates.tail })
  match h.faults.creates.headD .done with
  | .done => do
    modify (Host.makeFile signal seq)
    modify (startSegment signal seq)
  | .failed true => do
    modify (Host.makeFile signal seq)
    throw .io
  | .failed false => throw .io

/-- `segment::remove`. -/
def remove (signal : Signal) (seq : Nat) : Op Unit := do
  let h ← get
  set (h.setFaults { h.faults with removes := h.faults.removes.tail })
  match h.faults.removes.headD .done with
  | .done => if (h.disk.dirs signal).contains seq then modify (Host.removeFile signal seq) else throw .io
  | .failed => throw .io

/-! ## The operations -/

/-- `roll` once the segment is closed: its size and stamp. -/
def sealBack (signal : Signal) (bytes stamp : Nat) (h : Host) : Host :=
  (h.setQueue signal { h.queue signal with back := { (h.queue signal).back with bytes, stamp } }).modifyStats
    (·.checkSub bytes (h.queue signal).back.bytes)

/-- The end of `roll`: the new segment is the one at the back. -/
def pushBack (signal : Signal) (next grew : Nat) (h : Host) : Host :=
  let queue := h.queue signal
  (h.setQueue signal { queue with
    closed := queue.segments
    back := { seq := next, bytes := 0, stamp := 0 }
    activeSince := none }).modifyStats fun stats => { stats with queuedBytes := stats.queuedBytes + grew }

/-- The first half of `roll`: the segment at the back is closed. Returns by how much it grew. -/
def closeBack (signal : Signal) : Op Nat := do
  modify fun h => { h with inner := { h.inner with stamped := h.inner.stamped + 1 } }
  let bytes ← finish signal
  let h ← get
  set (sealBack signal bytes h.inner.stamped h)
  return bytes - (h.queue signal).back.bytes

def roll (signal : Signal) : Op Unit := do
  let h ← get
  if (h.queue signal).activeSince = none then return ()
  else do
    let next := (h.queue signal).back.seq + 1
    let grew ← closeBack signal
    reusing signal next
    modify (pushBack signal next grew)

/-- `min_by_key` on the stamp: the first of the smallest. -/
def minByStamp : List (Nat × Signal × Nat) → Option (Nat × Signal × Nat)
  | [] => none
  | x :: xs =>
    match minByStamp xs with
    | none => some x
    | some y => if y.1 < x.1 then some y else some x

/-- A signal's oldest closed segment with its stamp. -/
def SignalQueue.front (signal : Signal) (queue : SignalQueue) : Option (Nat × Signal × Nat) :=
  match queue.closed with
  | [] => none
  | held :: _ => some (held.stamp, signal, held.seq)

def oldestSealed (inner : Inner) : Option (Signal × Nat) :=
  (minByStamp (Signal.all.filterMap fun signal => (inner.signals signal).front signal)).map Prod.snd

/-- `Queue::seal`. -/
def sealAll : Op Unit := Signal.all.forM roll

/-- Taking a signal's oldest closed segment out of the queue. -/
def popFront (signal : Signal) (rest : List Held) (h : Host) : Host :=
  h.setQueue signal { h.queue signal with closed := rest }

def countDropped (held : Held) (h : Host) : Host :=
  h.modifyStats fun stats => { stats.checkSub stats.queuedBytes held.bytes with
    queuedBytes := stats.queuedBytes - held.bytes
    droppedBytes := stats.droppedBytes + held.bytes
    droppedSegments := stats.droppedSegments + 1 }

/-- The first half of `drop_oldest`: when no segment is closed, all are. -/
def sealIfNone : Op Unit := do
  let h ← get
  if (oldestSealed h.inner).isNone then sealAll else return ()

def dropOldest : Op Unit := do
  sealIfNone
  let h ← get
  match oldestSealed h.inner with
  | none => return ()
  | some (signal, _) =>
    match (h.queue signal).closed with
    | [] => return ()
    | held :: rest => do
      modify (popFront signal rest)
      remove signal held.seq
      modify (countDropped held)

/-- The loop of `write_record` that drops segments until the record fits. -/
def makeRoom (limits : QueueLimits) (plainLen : Nat) : Nat → Op Unit
  | 0 => throw .spinning
  | fuel + 1 => do
    let h ← get
    if h.inner.stats.queuedBytes + plainLen > limits.maxBytes then do
      dropOldest
      makeRoom limits plainLen fuel
    else return ()

/-- More than the rounds the loop can take before one changes nothing: each drops a closed segment, and once
there is none the rolls can close three more. -/
def Inner.rounds (inner : Inner) : Nat :=
  (Signal.all.map fun signal => (inner.signals signal).segments.length).sum + 2

/-- The end of `write_record`. -/
def countRecord (signal : Signal) (plainLen : Nat) (payload : Bytes) (h : Host) : Host :=
  let queue := h.queue signal
  let written := queue.written
  let grew := written - queue.back.bytes
  let h := h.setQueue signal { queue with
    back := { queue.back with bytes := written }
    activeSince := some (queue.activeSince.getD h.instant) }
  { h.modifyStats fun stats => { stats.checkSub written queue.back.bytes with
      queuedBytes := stats.queuedBytes + grew
      appendedRecords := stats.appendedRecords + 1
      appendedBytes := stats.appendedBytes + plainLen } with
    appended := Function.update h.appended signal (h.appended signal ++ [(queue.back.seq, payload)]) }

/-- The roll of a segment that has grown to its size. -/
def rollIfFull (limits : QueueLimits) (signal : Signal) : Op Unit := do
  let h ← get
  if (h.queue signal).written ≥ limits.maxSegmentBytes then roll signal else return ()

/-- `write_record` with the payload in pieces, as `append_chunks` has it. -/
def appendChunks (limits : QueueLimits) (signal : Signal) (chunks : List Bytes) : Op Unit := do
  let bytes := (chunks.map List.length).sum
  let plainLen := recordHeaderBytes + bytes
  if plainLen > limits.maxBytes then
    throw (.invalidInput s!"a {plainLen} byte record cannot fit a {limits.maxBytes} byte queue")
  else do
    let h ← get
    makeRoom limits plainLen h.inner.rounds
    rollIfFull limits signal
    writeHeader signal (Bytes.ofNatLE recordHeaderBytes bytes)
    chunks.forM (writePayload signal)
    modify (countRecord signal plainLen chunks.flatten)

def sealIfDue (limits : QueueLimits) : Op Unit :=
  Signal.all.forM fun signal => do
    let h ← get
    match (h.queue signal).activeSince with
    | some since => if h.instant - since ≥ limits.maxSegmentAge then roll signal else pure ()
    | none => pure ()

/-- The loop of `commit` over the closed segments; the segment behind them is the active one, where it
stops. Returns the bytes freed. -/
def commitLoop (signal : Signal) (acked active : Nat) : List Held → Nat → Op Nat
  | [], freed => return freed
  | front :: rest, freed =>
    if front.seq > acked ∨ front.seq = active then return freed
    else do
      modify (popFront signal rest)
      remove signal front.seq
      commitLoop signal acked active rest (freed + front.bytes)

def countFreed (freed : Nat) (h : Host) : Host :=
  h.modifyStats fun stats => { stats.checkSub stats.queuedBytes freed with
    queuedBytes := stats.queuedBytes - freed }

def commit (signal : Signal) (acked : Nat) : Op Unit := do
  let h ← get
  let freed ← commitLoop signal acked (h.queue signal).back.seq (h.queue signal).closed 0
  modify (countFreed freed)

inductive Call where
  | append (signal : Signal) (chunks : List Bytes)
  | sealIfDue
  | sealAll
  | commit (signal : Signal) (acked : Nat)
deriving DecidableEq, Repr

def Call.run (limits : QueueLimits) : Call → Op Unit
  | .append signal chunks => appendChunks limits signal chunks
  | .sealIfDue => Collecty.sealIfDue limits
  | .sealAll => Collecty.sealAll
  | .commit signal acked => Collecty.commit signal acked

/-- An operation with the time at which it runs and the outcomes of its file-system calls. -/
structure Step where
  call : Call
  faults : Faults
  now : Nat
  instant : Nat
deriving DecidableEq, Repr

def Host.step (limits : QueueLimits) (h : Host) (step : Step) : Except QueueError Unit × Host :=
  (step.call.run limits).exec { h with faults := step.faults, now := step.now, instant := step.instant }

/-- A run of operations on an open queue; what each returns is dropped, the state it leaves is not. -/
def Host.run (limits : QueueLimits) (h : Host) : List Step → Host
  | [] => h
  | step :: steps => Host.run limits (h.step limits step).2 steps

/-! ## Opening -/

/-- A queue being opened. The calls that change the disk are counted: with `calls = some n` the open stops,
by an error or with the process, when `n` of them are done. -/
structure Opening where
  disk : Disk
  created : Signal → List Nat
  now : Nat
  calls : Option Nat

abbrev OpenOp (α : Type) : Type := Eff QueueError Opening α

/-- One call that changes the disk. -/
def call (f : Opening → Opening) : OpenOp Unit := do
  let o ← get
  match o.calls with
  | none => set (f o)
  | some 0 => throw .io
  | some (n + 1) => set { f o with calls := some n }

/-- What `reseal` makes of a file, without the size of a file it writes anew. -/
inductive Resealed where
  | kept
  | rewritten (plain : Bytes)
  | dropped
deriving DecidableEq, Repr

def File.reseal (file : File) : Resealed :=
  if file.bytes = 0 then .dropped
  else
    let kept := wholeRecordsLen file.plain
    if file.whole ∧ kept = file.plain.length then .kept
    else if file.plain.take kept = [] then .dropped
    else .rewritten (file.plain.take kept)

section Open

-- The length of the zstd stream of some bytes.
variable (zstdLen : Bytes → Nat)

/-- `segment::reseal` on a file that is there. -/
def reseal (signal : Signal) (seq : Nat) (file : File) : OpenOp (Option Nat) :=
  match file.reseal with
  | .kept => return some file.bytes
  | .rewritten plain => do
    call fun o => { o with disk := o.disk.modifyDir signal (·.insert seq ⟨zstdLen plain, o.now, plain, true⟩) }
    return some (zstdLen plain)
  | .dropped => do
    call fun o => { o with disk := o.disk.modifyDir signal (·.erase seq) }
    return none

def firstSegment : Nat := 1

/-- The body of the first loop of `open`: the next number of the signal, and the files that stay. -/
def recoverSignal (signal : Signal) : OpenOp (Nat × List SegmentFile) := do
  let o ← get
  let files := list (o.disk.dirs signal)
  match (o.disk.dirs signal).toList.getLast? with
  | none => return (firstSegment, files)
  | some (seq, file) => do
    match ← reseal zstdLen signal seq file with
    | some bytes => return (seq + 1, files.dropLast ++ [{ seq, bytes, modified := file.modified }])
    | none => return (seq + 1, files.dropLast)

/-- The key the recovered segments are sorted by. -/
def recoveredKey (entry : Signal × SegmentFile) : Nat ×ₗ Nat ×ₗ Nat :=
  toLex (entry.2.modified, toLex (entry.1.index, entry.2.seq))

def sortRecovered (recovered : List (Signal × SegmentFile)) : List (Signal × SegmentFile) :=
  recovered.insertionSort fun a b => recoveredKey a ≤ recoveredKey b

/-- The segments of a signal in the order of the sorted list, stamped from one up over all signals. -/
def stampedOf (signal : Signal) (sorted : List (Signal × SegmentFile)) : List Held :=
  sorted.zipIdx.filterMap fun ((owner, file), i) =>
    if owner = signal then some { seq := file.seq, bytes := file.bytes, stamp := i + 1 } else none

/-- The body of the last loop of `open`. -/
def openActive (signal : Signal) (next : Nat) : OpenOp Unit :=
  call fun o => { o with
    disk := o.disk.modifyDir signal (·.insert next ⟨0, o.now, [], false⟩)
    created := Function.update o.created signal (o.created signal ++ [next]) }

/-- The numbers a directory's segments have. -/
def Dir.numbers (dir : Dir) : List Nat := dir.toList.map Prod.fst

/-- The identity file, made when there is none. From then on the segments found count as its own. -/
def loadIdentity (fresh : SenderId) : OpenOp Unit := do
  let o ← get
  match o.disk.identity with
  | some _ => return ()
  | none => call fun o => { o with
      disk := { o.disk with identity := some fresh }
      created := fun signal => Dir.numbers (o.disk.dirs signal) }

/-- `Queue::open`. -/
def openQueue (fresh : SenderId) : OpenOp Inner := do
  loadIdentity fresh
  let logs ← recoverSignal zstdLen .logs
  let traces ← recoverSignal zstdLen .traces
  let metrics ← recoverSignal zstdLen .metrics
  let recovered := logs.2.map (Prod.mk .logs) ++ traces.2.map (Prod.mk .traces)
    ++ metrics.2.map (Prod.mk .metrics)
  let sorted := sortRecovered recovered
  openActive .logs logs.1
  openActive .traces traces.1
  openActive .metrics metrics.1
  let signalQueue (signal : Signal) (next : Nat) : SignalQueue :=
    { closed := stampedOf signal sorted
      back := { seq := next, bytes := 0, stamp := 0 }
      active := some { seq := next, plain := [], written := 0 }
      activeSince := none }
  return {
    signals := fun
      | .logs => signalQueue .logs logs.1
      | .traces => signalQueue .traces traces.1
      | .metrics => signalQueue .metrics metrics.1
    stamped := sorted.length
    stats := {
      queuedBytes := (recovered.map fun entry => entry.2.bytes).sum
      appendedRecords := 0
      appendedBytes := 0
      droppedBytes := 0
      droppedSegments := 0 } }

end Open

end Collecty
