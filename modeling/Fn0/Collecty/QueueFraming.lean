/-
What is in a sealed segment, and whether a queue goes on after a call has failed.

The compressor cannot be rewound: a write that fails when it has taken part of a record leaves that part in
the stream, and a segment that could not be finished or a next one that could not be created leaves the
signal without a writer. With faults that do neither (`Gentle`) every sealed segment is the concatenation of
the records whose append returned, and an append whose calls succeed returns.
-/
import Mathlib
import Fn0.Lib.Codec
import Fn0.Collecty.QueueRoom

namespace Collecty

open Eff

/-! ## Records -/

/-- The records that went into a segment. -/
def recordsOf (appended : List (Nat × Bytes)) (seq : Nat) : List Bytes :=
  (appended.filter (·.1 = seq)).map Prod.snd

def framesOf (appended : List (Nat × Bytes)) (seq : Nat) : Bytes := (recordsOf appended seq).flatMap frameRecord

theorem takeRecord_frame {payload : Bytes} (h : payload.length < 2 ^ 32) (rest : Bytes) :
    takeRecord (frameRecord payload ++ rest) = some (payload, rest) := by
  have hlen : Bytes.toNatLE (Bytes.ofNatLE 4 payload.length) = payload.length :=
    Bytes.toNatLE_ofNatLE (by simpa using h)
  have hhead : (frameRecord payload ++ rest).take recordHeaderBytes = Bytes.ofNatLE 4 payload.length := by
    simp [frameRecord, recordHeaderBytes]
  have htail : (frameRecord payload ++ rest).drop recordHeaderBytes = payload ++ rest := by
    simp [frameRecord, recordHeaderBytes]
  unfold takeRecord
  rw [if_neg (by simp [frameRecord, recordHeaderBytes]), hhead, htail, hlen]
  simp

/-- A concatenation of records splits into them again. -/
theorem splitRecords_frames {records : List Bytes} (h : ∀ payload ∈ records, payload.length < 2 ^ 32) :
    splitRecords (records.flatMap frameRecord) = some records := by
  induction records with
  | nil => rw [splitRecords]; simp
  | cons payload records ih =>
    rw [List.forall_mem_cons] at h
    have hne : frameRecord payload ++ records.flatMap frameRecord ≠ [] := by
      intro hnil
      have := congrArg List.length hnil
      simp [frameRecord, recordHeaderBytes] at this
    rw [List.flatMap_cons, splitRecords, if_neg hne]
    split
    next hnone => rw [takeRecord_frame h.1] at hnone; cases hnone
    next payload' rest hsome =>
      rw [takeRecord_frame h.1] at hsome
      cases hsome
      simp [ih h.2]

theorem recordsOf_append_self (appended : List (Nat × Bytes)) (seq : Nat) (payload : Bytes) :
    recordsOf (appended ++ [(seq, payload)]) seq = recordsOf appended seq ++ [payload] := by
  simp [recordsOf]

theorem recordsOf_append_ne (appended : List (Nat × Bytes)) {seq seq' : Nat} (payload : Bytes) (h : seq' ≠ seq) :
    recordsOf (appended ++ [(seq', payload)]) seq = recordsOf appended seq := by
  simp [recordsOf, h]

theorem recordsOf_eq_nil {appended : List (Nat × Bytes)} {seq : Nat} (h : ∀ entry ∈ appended, entry.1 < seq) :
    recordsOf appended seq = [] := by
  simp only [recordsOf, List.map_eq_nil_iff, List.filter_eq_nil_iff, decide_eq_true_eq]
  intro entry hmem heq
  exact absurd (h entry hmem) (by omega)

/-! ## Faults that leave the queue whole -/

/-- No finish, create or unlink fails, and the only write that may fail is that of a record's length, when
the compressor took none of it. -/
structure Faults.Gentle (faults : Faults) : Prop where
  headers : ∀ outcome ∈ faults.headers, ∃ emitted, outcome = .done emitted ∨ outcome = .failed 0 emitted
  payloads : ∀ outcome ∈ faults.payloads, ∃ emitted, outcome = .done emitted
  finishes : ∀ outcome ∈ faults.finishes, ∃ emitted, outcome = .done emitted
  creates : ∀ outcome ∈ faults.creates, outcome = .done
  removes : ∀ outcome ∈ faults.removes, outcome = .done

/-- No call fails. -/
structure Faults.Clear (faults : Faults) : Prop extends faults.Gentle where
  allHeaders : ∀ outcome ∈ faults.headers, ∃ emitted, outcome = .done emitted

/-! ## The state of a queue between its calls -/

/-- One signal: what its writer has taken is its records and `tail`, and the files of the segments closed
since number `first` hold exactly their records. -/
structure Framed (first : Nat) (tail : Bytes) (queue : SignalQueue) (dir : Dir) (appended : List (Nat × Bytes)) :
    Prop where
  writer : ∃ stream, queue.active = some stream ∧ stream.seq = queue.back.seq ∧
    stream.plain = framesOf appended queue.back.seq ++ tail ∧ queue.back.bytes ≤ stream.written
  closedLt : ∀ held ∈ queue.closed, held.seq < queue.back.seq
  nodup : (queue.closed.map Held.seq).Nodup
  files : ∀ held ∈ queue.closed, ∃ file, dir[held.seq]? = some file ∧
    (first ≤ held.seq → file.whole = true ∧ file.plain = framesOf appended held.seq)
  recent : ∀ entry ∈ appended, entry.1 ≤ queue.back.seq
  first : first ≤ queue.back.seq
  idle : queue.activeSince = none → queue.back.bytes = 0

/-- The queue is whole: every signal is framed, the bytes are accounted for, and the faults to come are
gentle. `tail` is what the writers have taken of records that are not complete. -/
structure Whole (first : Signal → Nat) (tail : Signal → Bytes) (h : Host) : Prop where
  framed : ∀ signal, Framed (first signal) (tail signal) (h.queue signal) (h.disk.dirs signal) (h.appended signal)
  small : ∀ signal, ∀ entry ∈ h.appended signal, entry.2.length < 2 ^ 32
  account : h.inner.stats.queuedBytes = h.total SignalQueue.heldBytes
  gentle : h.faults.Gentle

section

variable {first : Signal → Nat} {tail : Signal → Bytes} {h h' : Host}

/-- A change to one signal. -/
theorem Whole.change (signal : Signal) {rest : Bytes} (hw : Whole first tail h)
    (hothers : ∀ signal' ≠ signal, h'.queue signal' = h.queue signal' ∧ h'.appended signal' = h.appended signal' ∧
      h'.disk.dirs signal' = h.disk.dirs signal')
    (hself : Framed (first signal) rest (h'.queue signal) (h'.disk.dirs signal) (h'.appended signal))
    (hsmall : ∀ entry ∈ h'.appended signal, entry.2.length < 2 ^ 32)
    (haccount : h'.inner.stats.queuedBytes + (h.queue signal).heldBytes =
      h.inner.stats.queuedBytes + (h'.queue signal).heldBytes)
    (hgentle : h'.faults.Gentle) :
    Whole first (Function.update tail signal rest) h' := by
  have htotal := total_change SignalQueue.heldBytes h h' signal (fun signal' hne => (hothers signal' hne).1)
  have hbefore := hw.account
  refine ⟨fun signal' => ?_, fun signal' => ?_, by omega, hgentle⟩
  · by_cases hs : signal' = signal
    · subst hs; simpa using hself
    · obtain ⟨hq, ha, hd⟩ := hothers signal' hs
      rw [hq, ha, hd, Function.update_of_ne hs]
      exact hw.framed signal'
  · by_cases hs : signal' = signal
    · subst hs; exact hsmall
    · rw [(hothers signal' hs).2.1]; exact hw.small signal'

theorem Whole.setFaults (hw : Whole first tail h) (faults : Faults) (hf : faults.Gentle) :
    Whole first tail (h.setFaults faults) :=
  ⟨hw.framed, hw.small, hw.account, hf⟩

theorem getElem?_insert_ne {dir : Dir} {seq n : Nat} {file : File} (hne : n ≠ seq) :
    (dir.insert seq file)[n]? = dir[n]? := by
  rw [OrdMap.getElem?_insert, if_neg hne.symm]

/-- A file written at the back touches none of the closed segments. -/
theorem Framed.files_insert {first : Nat} {tail : Bytes} {queue : SignalQueue} {dir : Dir}
    {appended : List (Nat × Bytes)} (hf : Framed first tail queue dir appended) {seq : Nat} (file : File)
    (hseq : queue.back.seq ≤ seq) :
    ∀ held ∈ queue.closed, ∃ file', (dir.insert seq file)[held.seq]? = some file' ∧
      (first ≤ held.seq → file'.whole = true ∧ file'.plain = framesOf appended held.seq) := by
  intro held hheld
  have hlt := hf.closedLt held hheld
  rw [getElem?_insert_ne (by omega)]
  exact hf.files held hheld

/-- What a write leaves: the writer has taken more of a record. -/
theorem Whole.emit {signal : Signal} {stream : Stream} (hw : Whole first tail h)
    (ha : (h.queue signal).active = some stream) (taken : Bytes) (emitted : Nat) :
    Whole first (Function.update tail signal (tail signal ++ taken))
      ((Collecty.emit signal stream taken emitted).exec h).2 := by
  have hf := hw.framed signal
  obtain ⟨stream', ha', hseq, hplain, hbytes⟩ := hf.writer
  rw [ha] at ha'
  cases ha'
  rw [Collecty.emit, exec_modify]
  refine hw.change signal (fun signal' hne => ⟨Host.queue_setQueue_ne _ _ _ hne, rfl, ?_⟩) ?_ (hw.small signal) ?_
    hw.gentle
  · exact Host.dirs_setFile_ne _ _ _ _ hne
  · simp only [Host.queue_setFile, Host.queue_setQueue_self, Host.dirs_setFile_self, Host.disk_setQueue,
      Host.appended_setFile, Host.appended_setQueue]
    refine ⟨⟨_, rfl, hseq, by rw [hplain, List.append_assoc], hbytes.trans (Nat.le_add_right _ _)⟩, hf.closedLt,
      hf.nodup, hf.files_insert _ hseq.ge, hf.recent, hf.first, hf.idle⟩
  · rw [Host.queue_setFile, Host.queue_setQueue_self]
    rfl

/-! ## Writes -/

theorem writeAll_done {signal : Signal} (hw : Whole first tail h) (plain : Bytes) (emitted : Nat) :
    Sat (writeAll signal plain (.done emitted)) h
      (fun _ h' => Whole first (Function.update tail signal (tail signal ++ plain)) h') (fun _ _ => False) := by
  obtain ⟨stream, ha, -⟩ := (hw.framed signal).writer
  rw [writeAll, sat_bind, sat_get, ha]
  exact hw.emit ha plain emitted

/-- A write that fails when the compressor has taken nothing changes nothing. -/
theorem writeAll_failed {signal : Signal} (hw : Whole first tail h) (plain : Bytes) (emitted : Nat) :
    Sat (writeAll signal plain (.failed 0 emitted)) h (fun _ _ => False) (fun _ h' => Whole first tail h') := by
  obtain ⟨stream, ha, -⟩ := (hw.framed signal).writer
  rw [writeAll, sat_bind, sat_get, ha]
  have := hw.emit ha [] emitted
  rwa [List.append_nil, Function.update_eq_self] at this

theorem writeHeader_whole {signal : Signal} (hw : Whole first tail h) (header : Bytes) :
    Sat (writeHeader signal header) h
      (fun _ h' => Whole first (Function.update tail signal (tail signal ++ header)) h')
      (fun _ h' => Whole first tail h' ∧ ¬ h.faults.Clear) := by
  rw [writeHeader, sat_bind, sat_get, sat_bind, sat_set]
  have hw' := hw.setFaults { h.faults with headers := h.faults.headers.tail }
    { hw.gentle with headers := forall_mem_tail hw.gentle.headers }
  obtain ⟨emitted, hdone | hfailed⟩ := headD_of_all hw.gentle.headers ⟨0, .inl rfl⟩
  · rw [hdone]
    exact (writeAll_done hw' header emitted).mono (fun _ _ hq => hq) (fun _ _ he => he.elim)
  · rw [hfailed]
    refine (writeAll_failed hw' header emitted).mono (fun _ _ hq => hq.elim) (fun _ _ he => ⟨he, fun hclear => ?_⟩)
    obtain ⟨emitted', hall⟩ := headD_of_all hclear.allHeaders ⟨0, rfl⟩
    rw [hfailed] at hall
    cases hall

theorem writePayload_whole {signal : Signal} (hw : Whole first tail h) (chunk : Bytes) :
    Sat (writePayload signal chunk) h
      (fun _ h' => Whole first (Function.update tail signal (tail signal ++ chunk)) h') (fun _ _ => False) := by
  rw [writePayload, sat_bind, sat_get]
  by_cases hc : chunk = []
  · rw [if_pos hc]
    exact writeAll_done hw chunk 0
  · rw [if_neg hc, sat_bind, sat_set]
    obtain ⟨emitted, hdone⟩ := headD_of_all hw.gentle.payloads ⟨0, rfl⟩
    rw [hdone]
    have hw' := hw.setFaults { h.faults with payloads := h.faults.payloads.tail }
      { hw.gentle with payloads := forall_mem_tail hw.gentle.payloads }
    exact writeAll_done hw' chunk emitted

theorem writePayloads_whole {signal : Signal} (chunks : List Bytes) (hw : Whole first tail h) :
    Sat (chunks.forM (writePayload signal)) h
      (fun _ h' => Whole first (Function.update tail signal (tail signal ++ chunks.flatten)) h')
      (fun _ _ => False) := by
  induction chunks generalizing tail h with
  | nil => simpa using hw
  | cons chunk chunks ih =>
    refine Sat.bind (writePayload_whole hw chunk) (fun _ _ hw' => ?_) (fun _ _ he => he)
    simpa [List.append_assoc] using ih hw'

/-! ## Closing a segment -/

theorem framed_rolled {signal : Signal} {stream : Stream} (hw : Whole first tail h) (ht : tail signal = [])
    (ha : (h.queue signal).active = some stream) (emitted : Nat) :
    Framed (first signal) [] ((rolled signal stream emitted h).queue signal)
      ((rolled signal stream emitted h).disk.dirs signal) (h.appended signal) := by
  have hf := hw.framed signal
  obtain ⟨stream', ha', hseq, hplain, hbytes⟩ := hf.writer
  rw [ha] at ha'
  cases ha'
  rw [ht, List.append_nil] at hplain
  have hlast : recordsOf (h.appended signal) ((h.queue signal).back.seq + 1) = [] :=
    recordsOf_eq_nil fun entry he => Nat.lt_succ_of_le (hf.recent entry he)
  simp only [rolled, Host.queue_modifyStats, Host.queue_setFaults, Host.queue_setQueue_self, Host.disk_modifyStats,
    Host.disk_setFaults, Host.disk_setQueue, Host.dirs_makeFile_self, Host.dirs_setFile_self]
  refine ⟨⟨_, rfl, rfl, by simp [framesOf, hlast], Nat.zero_le _⟩, ?_, ?_, ?_, ?_, ?_, fun _ => rfl⟩
  · intro held hheld
    rcases List.mem_append.mp hheld with hheld | hheld
    · exact Nat.lt_succ_of_lt (hf.closedLt held hheld)
    · rw [List.mem_singleton.mp hheld]
      exact Nat.lt_succ_self _
  · rw [List.map_append, List.nodup_append]
    refine ⟨hf.nodup, by simp, fun seq hmem seq' hmem' => ?_⟩
    obtain ⟨held, hheld, rfl⟩ := List.mem_map.mp hmem
    simp only [List.map_cons, List.map_nil, List.mem_singleton] at hmem'
    exact hmem' ▸ (hf.closedLt held hheld).ne
  · intro held hheld
    rcases List.mem_append.mp hheld with hheld | hheld
    · have hlt := hf.closedLt held hheld
      rw [getElem?_insert_ne (by omega)]
      exact hf.files_insert _ hseq.ge held hheld
    · rw [List.mem_singleton.mp hheld]
      refine ⟨⟨stream.written + emitted, h.now, stream.plain, true⟩, ?_, fun _ => ⟨rfl, hplain⟩⟩
      rw [getElem?_insert_ne (by simp), OrdMap.getElem?_insert, if_pos hseq]
  · exact fun entry he => (hf.recent entry he).trans (Nat.le_succ _)
  · exact hf.first.trans (Nat.le_succ _)

theorem Whole.rolled {signal : Signal} {stream : Stream} (hw : Whole first tail h) (ht : tail signal = [])
    (ha : (h.queue signal).active = some stream) (emitted : Nat) :
    Whole first tail (rolled signal stream emitted h) := by
  obtain ⟨stream', ha', -, -, hbytes⟩ := (hw.framed signal).writer
  rw [ha] at ha'
  cases ha'
  have hself := framed_rolled hw ht ha emitted
  have hgentle : (Collecty.rolled signal stream emitted h).faults.Gentle :=
    { hw.gentle with
      finishes := forall_mem_tail hw.gentle.finishes
      creates := forall_mem_tail hw.gentle.creates }
  have hchange : Whole first (Function.update tail signal []) (Collecty.rolled signal stream emitted h) := by
    refine hw.change signal (fun signal' hne => ⟨queue_rolled_ne hne _ _, rfl, dirs_rolled_ne hne _ _⟩)
      (framed_rolled hw ht ha emitted) (hw.small signal) ?_ hgentle
    have hqueue : ((Collecty.rolled signal stream emitted h).queue signal).heldBytes =
        ((h.queue signal).closed.map Held.bytes).sum + (stream.written + emitted) := by
      simp [Collecty.rolled, SignalQueue.heldBytes]
    have hstats : (Collecty.rolled signal stream emitted h).inner.stats.queuedBytes =
        h.inner.stats.queuedBytes + (stream.written + emitted - (h.queue signal).back.bytes) := rfl
    rw [hqueue, hstats, SignalQueue.heldBytes]
    omega
  rwa [← ht, Function.update_eq_self] at hchange

/-- A roll under gentle faults: the segment is closed, unless nothing was appended to it. -/
theorem roll_whole {signal : Signal} (hw : Whole first tail h) (ht : tail signal = []) :
    Sat (roll signal) h
      (fun _ h' => (Whole first tail h' ∧ h'.faults.headers = h.faults.headers) ∧ Rolled signal h h')
      (fun _ _ => False) := by
  by_cases hsince : (h.queue signal).activeSince = none
  · rw [roll, sat_bind, sat_get, if_pos hsince]
    exact ⟨⟨hw, rfl⟩, .of_since hsince⟩
  · obtain ⟨stream, ha, -⟩ := (hw.framed signal).writer
    obtain ⟨emitted, hfin⟩ := headD_of_all hw.gentle.finishes ⟨0, rfl⟩
    have hcre := headD_of_all hw.gentle.creates rfl
    exact sat_of_exec_ok (exec_roll hsince ha hfin hcre)
      ⟨⟨hw.rolled ht ha emitted, rfl⟩, .of_rolled hsince stream emitted⟩

/-! ## Taking a segment -/

/-- The front segment is taken: with its bytes counted the queue is whole again. -/
theorem Whole.taken {signal : Signal} {front : Held} {rest : List Held} {freed : Nat}
    (hw : Whole first tail (countFreed freed h)) (hc : (h.queue signal).closed = front :: rest) :
    Whole first tail (countFreed (freed + front.bytes) (taken signal rest front.seq h)) := by
  have hf := hw.framed signal
  have hrest : ∀ held ∈ rest, held ∈ (h.queue signal).closed := fun held hm => hc ▸ List.mem_cons_of_mem _ hm
  have hnodup := hf.nodup
  rw [show (countFreed freed h).queue = h.queue from rfl, hc, List.map_cons, List.nodup_cons] at hnodup
  have hgentle : (countFreed (freed + front.bytes) (Collecty.taken signal rest front.seq h)).faults.Gentle :=
    { hw.gentle with removes := forall_mem_tail hw.gentle.removes }
  have hqueue : (countFreed (freed + front.bytes) (Collecty.taken signal rest front.seq h)).queue signal =
      { h.queue signal with closed := rest } := Host.queue_setQueue_self _ _ _
  have hdir : (countFreed (freed + front.bytes) (Collecty.taken signal rest front.seq h)).disk.dirs signal =
      (h.disk.dirs signal).erase front.seq := Host.dirs_removeFile_self _ _ _
  have hchange : Whole first (Function.update tail signal (tail signal))
      (countFreed (freed + front.bytes) (Collecty.taken signal rest front.seq h)) := by
    refine hw.change signal (fun signal' hne => ⟨Host.queue_setQueue_ne _ _ _ hne, rfl,
      Host.dirs_removeFile_ne _ _ _ hne⟩) ?_ (hw.small signal) ?_ hgentle
    · rw [hqueue, hdir]
      refine ⟨hf.writer, fun held hm => hf.closedLt held (hrest held hm), hnodup.2, fun held hm => ?_, hf.recent,
        hf.first, hf.idle⟩
      have hne : front.seq ≠ held.seq := fun heq => hnodup.1 (heq ▸ List.mem_map_of_mem hm)
      obtain ⟨file, hfile, hwhole⟩ := hf.files held (hrest held hm)
      exact ⟨file, by rw [getElem?_erase, if_neg hne.symm]; exact hfile, hwhole⟩
    · have hbefore : ((countFreed freed h).queue signal).heldBytes =
          front.bytes + (rest.map Held.bytes).sum + (h.queue signal).back.bytes := by
        rw [SignalQueue.heldBytes, show (countFreed freed h).queue = h.queue from rfl, hc, List.map_cons, List.sum_cons]
      have hle := le_total SignalQueue.heldBytes (countFreed freed h) signal
      have hstats : (countFreed freed h).inner.stats.queuedBytes = h.inner.stats.queuedBytes - freed := rfl
      have hstats' : (countFreed (freed + front.bytes) (Collecty.taken signal rest front.seq h)).inner.stats.queuedBytes
          = h.inner.stats.queuedBytes - (freed + front.bytes) := rfl
      rw [← hw.account, hstats, hbefore] at hle
      rw [hqueue, hbefore, hstats, hstats', SignalQueue.heldBytes]
      dsimp only
      omega
  rwa [Function.update_eq_self] at hchange

/-- The front segment of a whole queue can be unlinked. -/
theorem unlinks_whole {signal : Signal} {front : Held} {rest : List Held} {freed : Nat}
    (hw : Whole first tail (countFreed freed h)) (hc : (h.queue signal).closed = front :: rest) :
    h.faults.removes.headD .done = .done ∧ (h.disk.dirs signal).contains front.seq := by
  have hmem : front ∈ ((countFreed freed h).queue signal).closed := by
    rw [show (countFreed freed h).queue = h.queue from rfl, hc]
    exact List.mem_cons_self
  obtain ⟨file, hfile, -⟩ := (hw.framed signal).files front hmem
  refine ⟨headD_of_all hw.gentle.removes rfl, ?_⟩
  rw [Std.ExtTreeMap.contains_eq_isSome_getElem?]
  exact Option.isSome_of_eq_some hfile

/-- What a signal holds it can give up. -/
theorem heldBytes_eq_zero (hw : Whole first tail h) (hload : h.total SignalQueue.load = 0) :
    h.total SignalQueue.heldBytes = 0 := by
  refine total_eq_zero fun signal => ?_
  have hq : (h.queue signal).load = 0 := Nat.le_zero.mp (hload ▸ le_total SignalQueue.load h signal)
  simp only [SignalQueue.load, Nat.add_eq_zero_iff, List.length_eq_zero_iff, ite_eq_left_iff, one_ne_zero,
    imp_false, not_not] at hq
  rw [SignalQueue.heldBytes, hq.1, (hw.framed signal).idle hq.2]
  rfl

/-- Under gentle faults nothing that writes no record fails, and the outcomes of the writes to come are left
alone. -/
theorem roomy_whole (first : Signal → Nat) {tail : Signal → Bytes} (ht : ∀ signal, tail signal = [])
    (headers : List WriteOutcome) :
    Roomy (fun h => Whole first tail h ∧ h.faults.headers = headers) (fun _ _ => False) where
  stats hq _ hi := ⟨⟨hi.1.framed, hi.1.small, hq.trans hi.1.account, hi.1.gentle⟩, hi.2⟩
  roll signal hi := (roll_whole hi.1 (ht signal)).mono
    (fun _ _ ⟨⟨hw, hh⟩, hr⟩ => ⟨⟨hw, hh.trans hi.2⟩, hr⟩) (fun _ _ he => he)
  unlinks hi hc := unlinks_whole hi.1 hc
  take hi hc := ⟨hi.1.taken hc, hi.2⟩
  empty hi hload := hi.1.account.trans (heldBytes_eq_zero hi.1 hload)

/-! ## The operations -/

/-- A record is complete: what the writer has taken of it is the record. -/
theorem Whole.countRecord (hw : Whole first tail h) {signal : Signal} (payload : Bytes)
    (ht : tail signal = frameRecord payload) (hsmall : payload.length < 2 ^ 32) (plainLen : Nat) :
    Whole first (Function.update tail signal []) (countRecord signal plainLen payload h) := by
  have hf := hw.framed signal
  obtain ⟨stream, ha, hseq, hplain, hbytes⟩ := hf.writer
  have hwritten : (h.queue signal).written = stream.written := by rw [SignalQueue.written, ha]
  have hqueue : (Collecty.countRecord signal plainLen payload h).queue signal = { h.queue signal with
      back := { (h.queue signal).back with bytes := stream.written }
      activeSince := some ((h.queue signal).activeSince.getD h.instant) } := by
    rw [← hwritten]
    exact Host.queue_setQueue_self _ _ _
  have happended : (Collecty.countRecord signal plainLen payload h).appended signal =
      h.appended signal ++ [((h.queue signal).back.seq, payload)] := Function.update_self _ _ _
  refine hw.change signal (fun signal' hne => ⟨Host.queue_setQueue_ne _ _ _ hne, Function.update_of_ne hne _ _, rfl⟩)
    ?_ ?_ ?_ hw.gentle
  · rw [hqueue, happended]
    refine ⟨⟨stream, ha, hseq, ?_, le_rfl⟩, hf.closedLt, hf.nodup, fun held hheld => ?_, ?_, hf.first, by simp⟩
    · rw [hplain, ht, framesOf, framesOf, recordsOf_append_self, List.flatMap_append]
      simp
    · obtain ⟨file, hfile, hwhole⟩ := hf.files held hheld
      refine ⟨file, hfile, fun hfirst => ?_⟩
      rw [framesOf, recordsOf_append_ne _ _ (hf.closedLt held hheld).ne']
      exact hwhole hfirst
    · intro entry he
      rcases List.mem_append.mp he with he | he
      · exact hf.recent entry he
      · rw [List.mem_singleton.mp he]
  · rw [happended]
    intro entry he
    rcases List.mem_append.mp he with he | he
    · exact hw.small signal entry he
    · rw [List.mem_singleton.mp he]
      exact hsmall
  · have hstats : (Collecty.countRecord signal plainLen payload h).inner.stats.queuedBytes =
        h.inner.stats.queuedBytes + (stream.written - (h.queue signal).back.bytes) := by rw [← hwritten]; rfl
    rw [hqueue, hstats, SignalQueue.heldBytes, SignalQueue.heldBytes]
    dsimp only
    omega

end

/-- Between operations no writer has a part of a record. -/
abbrev AllWhole (first : Signal → Nat) (h : Host) : Prop := Whole first (fun _ => []) h

section

variable {first : Signal → Nat} {limits : QueueLimits} {h : Host}

/-- An append leaves the queue whole, and fails only for a record the queue has no room for or when a call
fails. -/
theorem appendChunks_whole (limits : QueueLimits) (signal : Signal) {chunks : List Bytes} (hw : AllWhole first h)
    (hsmall : (chunks.map List.length).sum < 2 ^ 32) :
    Sat (appendChunks limits signal chunks) h (fun _ h' => AllWhole first h')
      (fun _ h' => AllWhole first h' ∧
        (h.faults.Clear → limits.maxBytes < recordHeaderBytes + (chunks.map List.length).sum)) := by
  have hlen : chunks.flatten.length = (chunks.map List.length).sum := List.length_flatten
  unfold appendChunks
  dsimp only
  split
  next hlarge => exact ⟨hw, fun _ => hlarge⟩
  next hfit =>
    rw [sat_bind, sat_get]
    have hroomy := roomy_whole first (fun _ => rfl) h.faults.headers
    refine Sat.bind (hroomy.makeRoom (by omega) ⟨hw, rfl⟩ (load_lt_rounds h)) (fun _ h₁ hi₁ => ?_)
      (fun _ _ he => he.elim)
    refine Sat.bind (hroomy.rollIfFull limits signal hi₁) (fun _ h₂ ⟨hw₂, hh₂⟩ => ?_) (fun _ _ he => he.elim)
    refine Sat.bind (writeHeader_whole hw₂ _) (fun _ h₃ hw₃ => ?_)
      (fun _ _ he => ⟨he.1, fun hclear => absurd ⟨hw₂.gentle, hh₂ ▸ hclear.allHeaders⟩ he.2⟩)
    refine Sat.bind (writePayloads_whole chunks hw₃) (fun _ h₄ hw₄ => ?_) (fun _ _ he => he.elim)
    rw [sat_modify]
    have hframe : Bytes.ofNatLE recordHeaderBytes (chunks.map List.length).sum ++ chunks.flatten =
        frameRecord chunks.flatten := by rw [frameRecord, hlen]
    rw [List.nil_append, Function.update_self, Function.update_idem, hframe] at hw₄
    have hdone := hw₄.countRecord chunks.flatten (Function.update_self signal _ _) (hlen ▸ hsmall)
      (recordHeaderBytes + (chunks.map List.length).sum)
    rwa [Function.update_idem, Function.update_eq_self signal fun _ => []] at hdone

/-- An operation whose faults are gentle and, if it appends, whose record has a length of 32 bits. -/
structure Step.Gentle (step : Step) : Prop where
  faults : step.faults.Gentle
  small : ∀ signal chunks, step.call = .append signal chunks → (chunks.map List.length).sum < 2 ^ 32

theorem AllWhole.step {step : Step} (hw : AllWhole first h) (hg : step.Gentle) :
    AllWhole first (h.step limits step).2 := by
  have hstart : AllWhole first { h with faults := step.faults, now := step.now, instant := step.instant } :=
    ⟨hw.framed, hw.small, hw.account, hg.faults⟩
  have hroomy := roomy_whole first (fun _ => rfl) step.faults.headers
  apply tracks_outcome
  rcases hcall : step.call with ⟨signal, chunks⟩ | _ | _ | ⟨signal, acked⟩
  · exact (appendChunks_whole limits signal hstart (hg.small signal chunks hcall)).mono (fun _ _ hq => hq)
      (fun _ _ he => he.1)
  · exact (hroomy.sealIfDue limits ⟨hstart, rfl⟩).mono (fun _ _ hq => hq.1) (fun _ _ he => he.elim)
  · exact (hroomy.sealAll ⟨hstart, rfl⟩).mono (fun _ _ hq => hq.1.1) (fun _ _ he => he.elim)
  · exact (hroomy.commit ⟨hstart, rfl⟩).mono (fun _ _ hq => hq.1) (fun _ _ he => he.elim)

theorem AllWhole.run (limits : QueueLimits) {steps : List Step} (hw : AllWhole first h)
    (hg : ∀ step ∈ steps, step.Gentle) :
    AllWhole first (h.run limits steps) := by
  induction steps generalizing h with
  | nil => exact hw
  | cons step steps ih =>
    rw [List.forall_mem_cons] at hg
    exact ih (hw.step hg.1) hg.2

end

/-! ## The records whose append returned -/

/-- The records a state was given. -/
def Silent (h h' : Host) : Prop := h'.appended = h.appended

instance : Std.Refl Silent := ⟨fun _ => rfl⟩

instance : IsTrans Host Silent := ⟨fun _ _ _ h h' => h'.trans h⟩

theorem silent_finish (signal : Signal) : Tracks Silent (finish signal) := by
  refine tracks_get_bind fun h => ?_
  split
  · rfl
  · rw [exec_bind_ok (exec_set h _)]
    split <;> rfl

theorem silent_reusing (signal : Signal) (seq : Nat) : Tracks Silent (reusing signal seq) := by
  refine tracks_get_bind fun h => ?_
  rw [exec_bind_ok (exec_set h _)]
  split <;> rfl

theorem silent_roll (signal : Signal) : Tracks Silent (roll signal) := by
  have hclose : Tracks Silent (closeBack signal) := by
    refine Tracks.bind (R := Silent) (tracks_modify fun _ => rfl) fun _ => ?_
    exact (silent_finish signal).bind fun bytes => tracks_get_bind fun h => rfl
  refine tracks_get.bind fun h => ?_
  split
  · exact tracks_pure _
  · exact hclose.bind fun grew => (silent_reusing signal _).bind fun _ => tracks_modify fun _ => rfl

theorem tracked_silent : Tracked Silent where
  faults _ _ := rfl
  stats _ _ := rfl
  clock _ _ _ _ := rfl
  emit _ _ _ := rfl
  roll := silent_roll
  take {h signal held rest} _ := by
    rw [exec_bind_ok (exec_modify _ h), remove, exec_bind_ok (exec_get _), exec_bind_ok (exec_set _ _)]
    split
    · split <;> rfl
    · rfl

/-- An append that returns has added its record, in some segment; one that fails has added none. -/
theorem appendChunks_appended (limits : QueueLimits) (signal : Signal) (chunks : List Bytes) (h : Host) :
    Sat (appendChunks limits signal chunks) h
      (fun _ h' => ∃ seq, h'.appended = Function.update h.appended signal
        (h.appended signal ++ [(seq, chunks.flatten)]))
      (fun _ h' => h'.appended = h.appended) := by
  have hbefore : ∀ plainLen fuel, Tracks Silent (do
      makeRoom limits plainLen fuel
      rollIfFull limits signal
      writeHeader signal (Bytes.ofNatLE recordHeaderBytes (chunks.map List.length).sum)
      chunks.forM (writePayload signal)) := fun plainLen fuel =>
    (tracked_silent.makeRoom _ _ _).bind fun _ => (tracked_silent.rollIfFull _ _).bind fun _ =>
      (tracked_silent.writeHeader _ _).bind fun _ => tracks_forM (tracked_silent.writePayload signal) _
  unfold appendChunks
  dsimp only
  split
  · exact Std.Refl.refl (r := Silent) h
  · rw [sat_bind, sat_get]
    have hsat := (hbefore (recordHeaderBytes + (chunks.map List.length).sum) h.inner.rounds).sat h
    simp only [sat_bind] at hsat ⊢
    refine hsat.mono (fun _ _ h₁ => h₁.mono (fun _ _ h₂ => h₂.mono (fun _ _ h₃ => h₃.mono (fun _ h₄ hs => ?_) ?_) ?_)
      ?_)
      ?_
    · rw [sat_modify]
      exact ⟨_, by rw [countRecord, ← (show h₄.appended = h.appended from hs)]; rfl⟩
    all_goals exact fun _ _ he => he

/-- The records an operation adds to a signal, from its call and what it returned. -/
def Call.accepted (signal : Signal) : Call → Except QueueError Unit → List Bytes
  | .append signal' chunks, .ok () => if signal' = signal then [chunks.flatten] else []
  | _, _ => []

/-- The records of a signal whose append returned, in the order of the run. -/
def Host.accepted (limits : QueueLimits) (h : Host) (signal : Signal) : List Step → List Bytes
  | [] => []
  | step :: steps => step.call.accepted signal (h.step limits step).1
      ++ Host.accepted limits (h.step limits step).2 signal steps

theorem appended_step (limits : QueueLimits) (h : Host) (signal : Signal) (step : Step) :
    (((h.step limits step).2).appended signal).map Prod.snd =
      (h.appended signal).map Prod.snd ++ step.call.accepted signal (h.step limits step).1 := by
  set h₀ : Host := { h with faults := step.faults, now := step.now, instant := step.instant } with hh₀
  have hsame : h₀.appended = h.appended := rfl
  unfold Host.step
  rw [← hh₀, ← hsame]
  rcases hcall : step.call with ⟨signal', chunks⟩ | _ | _ | ⟨signal', acked⟩
  · have hsat := appendChunks_appended limits signal' chunks h₀
    rw [Call.run]
    rcases hex : (appendChunks limits signal' chunks).exec h₀ with ⟨e | ⟨⟩, h₁⟩
    · rw [hsat.of_error hex]
      simp [Call.accepted]
    · obtain ⟨seq, hseq⟩ := hsat.of_ok hex
      rw [hseq]
      by_cases hs : signal' = signal
      · subst hs; simp [Call.accepted]
      · simp [Call.accepted, hs, Function.update_of_ne (Ne.symm hs)]
  · rw [Call.run, tracked_silent.sealIfDue limits h₀]
    simp [Call.accepted]
  · rw [Call.run, tracked_silent.sealAll h₀]
    simp [Call.accepted]
  · rw [Call.run, tracked_silent.commit signal' acked h₀]
    simp [Call.accepted]

theorem appended_run (limits : QueueLimits) (h : Host) (signal : Signal) (steps : List Step) :
    ((h.run limits steps).appended signal).map Prod.snd =
      (h.appended signal).map Prod.snd ++ h.accepted limits signal steps := by
  induction steps generalizing h with
  | nil => simp [Host.run, Host.accepted]
  | cons step steps ih =>
    rw [Host.run, ih, appended_step, Host.accepted, List.append_assoc]

/-! ## From an open on -/

theorem Opened.allWhole {zstdLen : Bytes → Nat} {o o' : Opening} {inner : Inner} (h : Opened zstdLen o inner o') :
    AllWhole (fun signal => nextNumber (o.disk.dirs signal)) (o'.host inner) := by
  have hqueue : ∀ signal, (o'.host inner).queue signal = openedQueue zstdLen o.disk.dirs signal := fun signal => by
    simp [Host.queue, Opening.host, h.signals]
  have hseqs : ∀ signal, (openedQueue zstdLen o.disk.dirs signal).closed.map Held.seq =
      (sortedFiles zstdLen o.disk.dirs signal).map SegmentFile.seq := fun signal => stampedOf_seq signal _
  -- a segment held is one of the files kept
  have hheld : ∀ signal, ∀ held ∈ (openedQueue zstdLen o.disk.dirs signal).closed,
      ∃ file ∈ keptFiles zstdLen (o.disk.dirs signal), file.seq = held.seq := by
    intro signal held hmem
    have hin := List.mem_map_of_mem (f := Held.seq) hmem
    rw [hseqs] at hin
    obtain ⟨file, hfile, hseq⟩ := List.mem_map.mp hin
    exact ⟨file, (sortedFiles_perm zstdLen o.disk.dirs signal).mem_iff.mp hfile, hseq⟩
  have hlt : ∀ signal, ∀ held ∈ (openedQueue zstdLen o.disk.dirs signal).closed,
      held.seq < nextNumber (o.disk.dirs signal) := by
    intro signal held hmem
    obtain ⟨file, hfile, hseq⟩ := hheld signal held hmem
    exact hseq ▸ keptFiles_lt zstdLen hfile
  refine ⟨fun signal => ?_, fun _ _ he => absurd he List.not_mem_nil, ?_, ?_⟩
  · rw [hqueue]
    refine ⟨⟨_, rfl, rfl, rfl, le_rfl⟩, hlt signal, ?_, fun held hmem => ?_, fun _ he => absurd he List.not_mem_nil,
      le_rfl, fun _ => rfl⟩
    · rw [hseqs, ((sortedFiles_perm zstdLen o.disk.dirs signal).map SegmentFile.seq).nodup_iff]
      exact List.pairwise_map.mpr ((keptFiles_sorted zstdLen _).imp fun hlt => hlt.ne)
    · obtain ⟨file, hfile, hseq⟩ := hheld signal held hmem
      obtain ⟨data, hdata⟩ := keptFiles_present zstdLen hfile o.now
      have hbelow := hlt signal held hmem
      refine ⟨data, ?_, fun hfirst => absurd hfirst (by omega)⟩
      rw [show (o'.host inner).disk = o'.disk from rfl, h.dirs, getElem?_insert_ne (by omega), ← hseq]
      exact hdata
  · have hbytes : ∀ signal, (openedQueue zstdLen o.disk.dirs signal).heldBytes =
        ((keptFiles zstdLen (o.disk.dirs signal)).map SegmentFile.bytes).sum := fun signal =>
      openedQueue_bytes zstdLen o.disk.dirs signal
    have hsum : ((recoveredFiles zstdLen o.disk.dirs).map fun entry => entry.2.bytes).sum =
        (o'.host inner).total SignalQueue.heldBytes := by
      simp only [Host.total, hqueue, hbytes, recoveredFiles, Signal.all, List.flatMap_cons, List.flatMap_nil,
        List.append_nil, List.map_append, List.sum_append, List.map_map]
      exact (Nat.add_assoc _ _ _).symm
    exact h.queuedBytes.trans hsum
  · exact ⟨by simp [Opening.host], by simp [Opening.host], by simp [Opening.host], by simp [Opening.host],
      by simp [Opening.host]⟩

/-- A sealed segment of a state: closed since the queue was opened, its file is whole, and its plain bytes are
the records whose append went into it, which a reader gets back. -/
def SealedWhole (first : Signal → Nat) (h : Host) : Prop :=
  ∀ signal, ∀ held ∈ (h.queue signal).closed, first signal ≤ held.seq →
    ∃ file, (h.disk.dirs signal)[held.seq]? = some file ∧ file.whole = true ∧
      file.plain = (recordsOf (h.appended signal) held.seq).flatMap frameRecord ∧
      splitRecords file.plain = some (recordsOf (h.appended signal) held.seq)

/-- An append in a state, when no call fails, returns for every record that fits the queue. -/
def Appends (limits : QueueLimits) (h : Host) : Prop :=
  ∀ step signal chunks, step.call = .append signal chunks → step.faults.Clear →
    (chunks.map List.length).sum < 2 ^ 32 → recordHeaderBytes + (chunks.map List.length).sum ≤ limits.maxBytes →
    (h.step limits step).1 = .ok ()

theorem Whole.sealedWhole {first : Signal → Nat} {tail : Signal → Bytes} {h : Host} (hw : Whole first tail h) :
    SealedWhole first h := by
  intro signal held hmem hfirst
  obtain ⟨file, hfile, hwhole⟩ := (hw.framed signal).files held hmem
  obtain ⟨htrue, hplain⟩ := hwhole hfirst
  refine ⟨file, hfile, htrue, hplain, hplain ▸ splitRecords_frames fun payload hpayload => ?_⟩
  obtain ⟨entry, hentry, rfl⟩ := List.mem_map.mp hpayload
  exact hw.small signal entry (List.mem_of_mem_filter hentry)

theorem AllWhole.appends {first : Signal → Nat} {h : Host} (hw : AllWhole first h) (limits : QueueLimits) :
    Appends limits h := by
  intro step signal chunks hcall hclear hsmall hfit
  have hstart : AllWhole first { h with faults := step.faults, now := step.now, instant := step.instant } :=
    ⟨hw.framed, hw.small, hw.account, hclear.toGentle⟩
  have hsat := appendChunks_whole limits signal hstart hsmall
  unfold Host.step
  rw [hcall, Call.run]
  rcases hex : (appendChunks limits signal chunks).exec
    { h with faults := step.faults, now := step.now, instant := step.instant } with ⟨e | ⟨⟩, h'⟩
  · have hlarge := (hsat.of_error hex).2 hclear
    omega
  · rfl

/-- **Sealed segments are whole and appends go on as long as the faults are gentle.** From an open on, in every
state of a run of operations in which no finish, create or unlink fails, the only write that fails is that of
a record's length when nothing of it was taken, and no record is of 2^32 bytes or more: every segment closed
since holds exactly the records that went into it, the records of a signal are those whose append returned,
and an append whose calls succeed returns. -/
theorem framing_of_gentle (zstdLen : Bytes → Nat) (limits : QueueLimits) (fresh : SenderId) (o o' : Opening)
    (inner : Inner) (hcalls : o.calls = none) (hopen : (openQueue zstdLen fresh).exec o = (.ok inner, o'))
    (steps : List Step) (hgentle : ∀ step ∈ steps, step.Gentle) :
    SealedWhole (fun signal => nextNumber (o.disk.dirs signal)) ((o'.host inner).run limits steps) ∧
      (∀ signal, (((o'.host inner).run limits steps).appended signal).map Prod.snd =
        (o'.host inner).accepted limits signal steps) ∧
      Appends limits ((o'.host inner).run limits steps) := by
  have hw := (Opened.of_exec hcalls hopen).allWhole.run limits hgentle
  exact ⟨hw.sealedWhole, fun signal => by rw [appended_run]; rfl, hw.appends limits⟩

/-- A queue with no file yet. -/
def freshOpening : Opening where
  disk := { identity := none, dirs := fun _ => ∅ }
  created := fun _ => []
  now := 1
  calls := none

/-- A run on a queue with no file yet, from the operations and their faults. -/
def freshRun (calls : List (Call × Faults)) : Option Host :=
  match (openQueue List.length [2]).exec freshOpening with
  | (.error _, _) => none
  | (.ok inner, o') => some ((o'.host inner).run tinyLimits
      (calls.map fun (call, faults) => { call, faults, now := 2, instant := 2 }))

/-- The write of a record of one byte fails when its length has been taken, the next append returns, and the
segment is sealed with the length in front of the record: it does not split. And where the finish of a segment
fails once, the next append fails with every call going well. -/
theorem failed_calls_break_queue :
    (freshRun [(.append .logs [[9]], { payloads := [.failed 0 0] }), (.append .logs [[7]], {}), (.sealAll, {})]).map
        (fun h => ((h.disk.dirs .logs)[1]?.map File.plain, h.appended .logs)) =
      some (some [1, 0, 0, 0, 1, 0, 0, 0, 7], [(1, [7])]) ∧
    splitRecords [1, 0, 0, 0, 1, 0, 0, 0, 7] = none ∧
    (freshRun [(.append .logs [[7]], {}), (.sealAll, { finishes := [.failed] })]).map
        (fun h => (h.step tinyLimits { call := .append .logs [[8]], faults := {}, now := 3, instant := 3 }).1) =
      some (.error (.brokenPipe "the segment is already closed")) := by
  decide +kernel

/-- A run with a failed write of a length: the segment sealed holds the record appended after it. -/
theorem gentle_run_sealed_whole :
    ∃ inner o', (openQueue List.length [2]).exec freshOpening = (.ok inner, o') ∧
      SealedWhole (fun signal => nextNumber (freshOpening.disk.dirs signal)) ((o'.host inner).run tinyLimits
        [{ call := .append .logs [[9]], faults := { headers := [.failed 0 3] }, now := 2, instant := 2 },
          { call := .append .logs [[7]], faults := {}, now := 2, instant := 2 },
          { call := .sealAll, faults := {}, now := 2, instant := 2 }]) := by
  obtain ⟨inner, o', hopen, -⟩ := openQueue_none List.length [2] (o := freshOpening) rfl
  refine ⟨inner, o', hopen, (framing_of_gentle List.length tinyLimits [2] _ o' inner rfl hopen _ ?_).1⟩
  have hnone : Faults.Gentle {} := ⟨by simp, by simp, by simp, by simp, by simp⟩
  simp only [List.forall_mem_cons, List.not_mem_nil, false_imp_iff, implies_true, and_true]
  refine ⟨⟨⟨by simp, by simp, by simp, by simp, by simp⟩, ?_⟩, ⟨hnone, ?_⟩, ⟨hnone, ?_⟩⟩
  all_goals
    rintro signal chunks ⟨⟩
    try decide

end Collecty
