/-
The count of queued bytes, on which the loop of `write_record` that makes room depends.

The counter and the segments held are changed at five places, and at three of them a call that can fail stands
between the two: a segment is taken out of the queue before it is unlinked and its bytes are subtracted after,
and a segment that was closed has its size before the next one is created and the counter has it after. When
unlinks and creations succeed the count is exact in every state (`Counted`), whatever the writes and the
finishes come to.
-/
import Mathlib
import Fn0.Collecty.QueueFraming

namespace Collecty

open Eff

/-- No unlink and no creation of a segment fails. -/
structure Faults.Exact (faults : Faults) : Prop where
  creates : ∀ outcome ∈ faults.creates, outcome = .done
  removes : ∀ outcome ∈ faults.removes, outcome = .done

/-- One signal: the size kept for the segment at the back is what its writer had written at some time, the
closed segments are files of their own, and a segment nothing was appended to has no size. -/
structure Tallied (queue : SignalQueue) (dir : Dir) : Prop where
  writer : ∀ stream, queue.active = some stream →
    stream.seq = queue.back.seq ∧ queue.back.bytes ≤ stream.written
  closedLt : ∀ held ∈ queue.closed, held.seq < queue.back.seq
  nodup : (queue.closed.map Held.seq).Nodup
  files : ∀ held ∈ queue.closed, held.seq ∈ dir
  idle : queue.activeSince = none → queue.back.bytes = 0

/-- The counter is the sum of the sizes held, and no subtraction went below zero. -/
structure Counted (h : Host) : Prop where
  tallied : ∀ signal, Tallied (h.queue signal) (h.disk.dirs signal)
  account : h.inner.stats.queuedBytes = h.total SignalQueue.heldBytes
  exactly : h.inner.stats.underflow = false
  faults : h.faults.Exact

/-- An operation fails with the count still exact, and not because it never ends. -/
def FailsCounted (e : QueueError) (h : Host) : Prop := Counted h ∧ e ≠ .spinning

section

variable {h h' : Host}

/-- A change to one signal, in which the counter follows what the signal holds. -/
theorem Counted.change (signal : Signal) (hk : Counted h)
    (hothers : ∀ signal' ≠ signal, h'.queue signal' = h.queue signal' ∧ h'.disk.dirs signal' = h.disk.dirs signal')
    (hself : Tallied (h'.queue signal) (h'.disk.dirs signal))
    (haccount : h'.inner.stats.queuedBytes + (h.queue signal).heldBytes =
      h.inner.stats.queuedBytes + (h'.queue signal).heldBytes)
    (hexactly : h'.inner.stats.underflow = false) (hfaults : h'.faults.Exact) : Counted h' := by
  have htotal := total_change SignalQueue.heldBytes h h' signal (fun signal' hne => (hothers signal' hne).1)
  have hbefore := hk.account
  refine ⟨fun signal' => ?_, by omega, hexactly, hfaults⟩
  by_cases hs : signal' = signal
  · subst hs; exact hself
  · obtain ⟨hq, hd⟩ := hothers signal' hs
    rw [hq, hd]
    exact hk.tallied signal'

/-- The faults to come do not matter for what is counted so far. -/
theorem Counted.setFaults (hk : Counted h) {faults : Faults} (hf : faults.Exact) : Counted (h.setFaults faults) :=
  ⟨hk.tallied, hk.account, hk.exactly, hf⟩

/-! ## Writes -/

/-- A write lets the writer grow, and the size kept is one it had before. -/
theorem Counted.emit {signal : Signal} {stream : Stream} (hk : Counted h)
    (ha : (h.queue signal).active = some stream) (taken : Bytes) (emitted : Nat) :
    Counted ((emit signal stream taken emitted).exec h).2 ∧
      (((Collecty.emit signal stream taken emitted).exec h).2.queue signal).active ≠ none := by
  obtain ⟨hseq, hle⟩ := (hk.tallied signal).writer stream ha
  have ht := hk.tallied signal
  rw [Collecty.emit, exec_modify]
  refine ⟨hk.change signal (fun signal' hne => ⟨Host.queue_setQueue_ne _ _ _ hne, Host.dirs_setFile_ne _ _ _ _ hne⟩)
    ?_ ?_ hk.exactly hk.faults, by simp⟩
  · simp only [Host.queue_setFile, Host.queue_setQueue_self, Host.dirs_setFile_self, Host.disk_setQueue]
    refine ⟨?_, ht.closedLt, ht.nodup, fun held hm => mem_insert_of_mem (ht.files held hm), ht.idle⟩
    rintro _ ⟨⟩
    exact ⟨hseq, hle.trans (Nat.le_add_right _ _)⟩
  · simp only [Host.queue_setFile, Host.queue_setQueue_self]
    rfl

theorem writeAll_counted {signal : Signal} (plain : Bytes) (outcome : WriteOutcome) (hk : Counted h) :
    Sat (writeAll signal plain outcome) h (fun _ h' => Counted h' ∧ (h'.queue signal).active ≠ none) FailsCounted := by
  unfold writeAll
  rw [sat_bind, sat_get]
  split
  · exact ⟨hk, by simp [closedError]⟩
  next stream ha =>
    split
    · exact hk.emit ha plain _
    · exact ⟨(hk.emit ha _ _).1, by simp⟩

theorem writeHeader_counted {signal : Signal} (header : Bytes) (hk : Counted h) :
    Sat (writeHeader signal header) h (fun _ h' => Counted h' ∧ (h'.queue signal).active ≠ none) FailsCounted := by
  rw [writeHeader, sat_bind, sat_get, sat_bind, sat_set]
  exact writeAll_counted header _ (hk.setFaults ⟨hk.faults.creates, hk.faults.removes⟩)

theorem writePayload_counted {signal : Signal} (chunk : Bytes) (hk : Counted h) :
    Sat (writePayload signal chunk) h (fun _ h' => Counted h' ∧ (h'.queue signal).active ≠ none) FailsCounted := by
  rw [writePayload, sat_bind, sat_get]
  split
  · exact writeAll_counted chunk _ hk
  · rw [sat_bind, sat_set]
    exact writeAll_counted chunk _ (hk.setFaults ⟨hk.faults.creates, hk.faults.removes⟩)

theorem writePayloads_counted {signal : Signal} (chunks : List Bytes) (hk : Counted h)
    (ha : (h.queue signal).active ≠ none) :
    Sat (chunks.forM (writePayload signal)) h (fun _ h' => Counted h' ∧ (h'.queue signal).active ≠ none)
      FailsCounted := by
  induction chunks generalizing h with
  | nil => exact ⟨hk, ha⟩
  | cons chunk chunks ih =>
    exact Sat.bind (writePayload_counted chunk hk) (fun _ _ ⟨hk', ha'⟩ => ih hk' ha') (fun _ _ he => he)

/-- A record is counted when its segment has a writer. -/
theorem Counted.countRecord {signal : Signal} (hk : Counted h) (ha : (h.queue signal).active ≠ none) (plainLen : Nat)
    (payload : Bytes) : Counted (countRecord signal plainLen payload h) := by
  obtain ⟨stream, ha⟩ := Option.ne_none_iff_exists'.mp ha
  obtain ⟨hseq, hle⟩ := (hk.tallied signal).writer stream ha
  have hwritten : (h.queue signal).written = stream.written := by rw [SignalQueue.written, ha]
  have ht := hk.tallied signal
  have hqueue : (Collecty.countRecord signal plainLen payload h).queue signal = { h.queue signal with
      back := { (h.queue signal).back with bytes := stream.written }
      activeSince := some ((h.queue signal).activeSince.getD h.instant) } := by
    rw [← hwritten]
    exact Host.queue_setQueue_self _ _ _
  refine hk.change signal (fun signal' hne => ⟨Host.queue_setQueue_ne _ _ _ hne, rfl⟩) ?_ ?_ ?_ hk.faults
  · rw [hqueue]
    refine ⟨fun stream' ha' => ?_, ht.closedLt, ht.nodup, ht.files, by simp⟩
    cases ha.symm.trans ha'
    exact ⟨hseq, le_rfl⟩
  · have hstats : (Collecty.countRecord signal plainLen payload h).inner.stats.queuedBytes =
        h.inner.stats.queuedBytes + (stream.written - (h.queue signal).back.bytes) := by rw [← hwritten]; rfl
    rw [hqueue, hstats, SignalQueue.heldBytes, SignalQueue.heldBytes]
    dsimp only
    omega
  · change (h.inner.stats.underflow || decide ((h.queue signal).written < (h.queue signal).back.bytes)) = false
    rw [hk.exactly, hwritten, Bool.false_or, decide_eq_false_iff_not]
    omega

/-! ## A roll -/

/-- A roll whose finish fails leaves the signal without a writer. -/
theorem exec_roll_failed {signal : Signal} {stream : Stream} (hsince : (h.queue signal).activeSince ≠ none)
    (ha : (h.queue signal).active = some stream) (hfin : h.faults.finishes.headD (.done 0) = .failed) :
    (roll signal).exec h = (.error .io,
      ({ h with inner := { h.inner with stamped := h.inner.stamped + 1 } }.setQueue signal
        { h.queue signal with active := none }).setFaults { h.faults with finishes := h.faults.finishes.tail }) := by
  have ha' : (h.inner.signals signal).active = some stream := ha
  have hs' : (h.inner.signals signal).activeSince ≠ none := hsince
  rw [List.headD_eq_head?_getD] at hfin
  simp [roll, closeBack, finish, exec_bind, Host.queue, ha', hs', hfin]

theorem exec_roll_closed {signal : Signal} (hsince : (h.queue signal).activeSince ≠ none)
    (ha : (h.queue signal).active = none) :
    (roll signal).exec h =
      (.error closedError, { h with inner := { h.inner with stamped := h.inner.stamped + 1 } }) := by
  have ha' : (h.inner.signals signal).active = none := ha
  have hs' : (h.inner.signals signal).activeSince ≠ none := hsince
  simp [roll, closeBack, finish, exec_bind, Host.queue, ha', hs']

theorem Counted.rolled {signal : Signal} {stream : Stream} (hk : Counted h)
    (ha : (h.queue signal).active = some stream) (emitted : Nat) : Counted (rolled signal stream emitted h) := by
  obtain ⟨hseq, hle⟩ := (hk.tallied signal).writer stream ha
  have ht := hk.tallied signal
  refine hk.change signal (fun signal' hne => ⟨queue_rolled_ne hne _ _, dirs_rolled_ne hne _ _⟩) ?_ ?_ ?_
    ⟨forall_mem_tail hk.faults.creates, hk.faults.removes⟩
  · simp only [Collecty.rolled, Host.queue_modifyStats, Host.queue_setFaults, Host.queue_setQueue_self,
      Host.disk_modifyStats, Host.disk_setFaults, Host.disk_setQueue, Host.dirs_makeFile_self, Host.dirs_setFile_self]
    refine ⟨?_, ?_, ?_, ?_, fun _ => rfl⟩
    · rintro _ ⟨⟩
      exact ⟨rfl, le_rfl⟩
    · intro held hm
      rcases List.mem_append.mp hm with hm | hm
      · exact Nat.lt_succ_of_lt (ht.closedLt held hm)
      · rw [List.mem_singleton.mp hm]
        exact Nat.lt_succ_self _
    · rw [List.map_append, List.nodup_append]
      refine ⟨ht.nodup, by simp, fun seq hm seq' hm' => ?_⟩
      obtain ⟨held, hheld, rfl⟩ := List.mem_map.mp hm
      simp only [List.map_cons, List.map_nil, List.mem_singleton] at hm'
      exact hm' ▸ (ht.closedLt held hheld).ne
    · intro held hm
      rcases List.mem_append.mp hm with hm | hm
      · exact mem_insert_of_mem (mem_insert_of_mem (ht.files held hm))
      · rw [List.mem_singleton.mp hm]
        exact mem_insert_of_mem (hseq ▸ mem_insert_self)
  · have hqueue : ((Collecty.rolled signal stream emitted h).queue signal).heldBytes =
        ((h.queue signal).closed.map Held.bytes).sum + (stream.written + emitted) := by
      simp [Collecty.rolled, SignalQueue.heldBytes]
    have hstats : (Collecty.rolled signal stream emitted h).inner.stats.queuedBytes =
        h.inner.stats.queuedBytes + (stream.written + emitted - (h.queue signal).back.bytes) := rfl
    rw [hqueue, hstats, SignalQueue.heldBytes]
    omega
  · change (h.inner.stats.underflow || decide (stream.written + emitted < (h.queue signal).back.bytes)) = false
    rw [hk.exactly, Bool.false_or, decide_eq_false_iff_not]
    omega

/-- A roll either closes the segment or fails before its size is taken. -/
theorem roll_counted {signal : Signal} (hk : Counted h) :
    Sat (roll signal) h (fun _ h' => Counted h' ∧ Rolled signal h h') FailsCounted := by
  by_cases hsince : (h.queue signal).activeSince = none
  · rw [roll, sat_bind, sat_get, if_pos hsince]
    exact ⟨hk, .of_since hsince⟩
  · rcases ha : (h.queue signal).active with _ | stream
    · unfold Sat
      rw [exec_roll_closed hsince ha]
      exact ⟨⟨hk.tallied, hk.account, hk.exactly, hk.faults⟩, by simp [closedError]⟩
    rcases hfin : h.faults.finishes.headD (.done 0) with emitted | _
    · exact sat_of_exec_ok (exec_roll hsince ha hfin (headD_of_all hk.faults.creates rfl))
        ⟨hk.rolled ha emitted, .of_rolled hsince stream emitted⟩
    · unfold Sat
      rw [exec_roll_failed hsince ha hfin]
      have ht := hk.tallied signal
      refine ⟨hk.change signal (fun signal' hne => ⟨Host.queue_setQueue_ne _ _ _ hne, rfl⟩) ?_ ?_ hk.exactly
        ⟨hk.faults.creates, hk.faults.removes⟩, by simp⟩
      · rw [Host.queue_setFaults, Host.queue_setQueue_self]
        exact ⟨by simp, ht.closedLt, ht.nodup, ht.files, ht.idle⟩
      · rw [Host.queue_setFaults, Host.queue_setQueue_self]
        rfl

/-! ## Taking a segment -/

theorem Counted.unlinks {signal : Signal} {front : Held} {rest : List Held} {freed : Nat}
    (hk : Counted (countFreed freed h)) (hc : (h.queue signal).closed = front :: rest) :
    h.faults.removes.headD .done = .done ∧ (h.disk.dirs signal).contains front.seq := by
  have hmem : front ∈ ((countFreed freed h).queue signal).closed := by
    rw [show (countFreed freed h).queue = h.queue from rfl, hc]
    exact List.mem_cons_self
  exact ⟨headD_of_all hk.faults.removes rfl, (hk.tallied signal).files front hmem⟩

/-- The front segment is taken: with its bytes subtracted the count is exact again. -/
theorem Counted.taken {signal : Signal} {front : Held} {rest : List Held} {freed : Nat}
    (hk : Counted (countFreed freed h)) (hc : (h.queue signal).closed = front :: rest) :
    Counted (countFreed (freed + front.bytes) (taken signal rest front.seq h)) := by
  have ht := hk.tallied signal
  rw [show (countFreed freed h).queue = h.queue from rfl] at ht
  have hrest : ∀ held ∈ rest, held ∈ (h.queue signal).closed := fun held hm => hc ▸ List.mem_cons_of_mem _ hm
  have hnodup := ht.nodup
  rw [hc, List.map_cons, List.nodup_cons] at hnodup
  have hqueue : (countFreed (freed + front.bytes) (Collecty.taken signal rest front.seq h)).queue signal =
      { h.queue signal with closed := rest } := queue_taken signal rest front.seq
  have hbefore : ((countFreed freed h).queue signal).heldBytes =
      front.bytes + (rest.map Held.bytes).sum + (h.queue signal).back.bytes := by
    rw [SignalQueue.heldBytes, show (countFreed freed h).queue = h.queue from rfl, hc, List.map_cons, List.sum_cons]
  -- what is still to be subtracted is at most what is counted
  have hle := le_total SignalQueue.heldBytes (countFreed freed h) signal
  have hstats : (countFreed freed h).inner.stats.queuedBytes = h.inner.stats.queuedBytes - freed := rfl
  have hstats' : (countFreed (freed + front.bytes) (Collecty.taken signal rest front.seq h)).inner.stats.queuedBytes
      = h.inner.stats.queuedBytes - (freed + front.bytes) := rfl
  have hexactly := hk.exactly
  change (h.inner.stats.underflow || decide (h.inner.stats.queuedBytes < freed)) = false at hexactly
  rw [Bool.or_eq_false_iff, decide_eq_false_iff_not] at hexactly
  rw [← hk.account, hstats, hbefore] at hle
  refine hk.change signal (fun signal' hne => ⟨queue_taken_ne hne rest front.seq, Host.dirs_removeFile_ne _ _ _ hne⟩)
    ?_ ?_ ?_
    ⟨hk.faults.creates, forall_mem_tail hk.faults.removes⟩
  · rw [hqueue, show (countFreed (freed + front.bytes) (Collecty.taken signal rest front.seq h)).disk.dirs signal =
      (h.disk.dirs signal).erase front.seq from Host.dirs_removeFile_self _ _ _]
    refine ⟨ht.writer, fun held hm => ht.closedLt held (hrest held hm), hnodup.2, fun held hm => ?_, ht.idle⟩
    have hne : held.seq ≠ front.seq := fun heq => hnodup.1 (heq ▸ List.mem_map_of_mem hm)
    exact mem_erase.mpr ⟨hne, ht.files held (hrest held hm)⟩
  · rw [hqueue, hbefore, hstats, hstats', SignalQueue.heldBytes]
    dsimp only
    omega
  · change (h.inner.stats.underflow || decide (h.inner.stats.queuedBytes < freed + front.bytes)) = false
    rw [hexactly.1, Bool.false_or, decide_eq_false_iff_not]
    omega

end

/-- The operations that write no record keep the count, and the loop that makes room ends. -/
theorem roomy_counted : Roomy Counted FailsCounted where
  stats hq hu hk := ⟨hk.tallied, hq.trans hk.account, hu.trans hk.exactly, hk.faults⟩
  roll _ hk := roll_counted hk
  unlinks hk hc := hk.unlinks hc
  take hk hc := hk.taken hc
  empty {h} hk hload := by
    refine hk.account.trans (total_eq_zero fun signal => ?_)
    have hq : (h.queue signal).load = 0 := Nat.le_zero.mp (hload ▸ le_total SignalQueue.load h signal)
    simp only [SignalQueue.load, Nat.add_eq_zero_iff, List.length_eq_zero_iff, ite_eq_left_iff, one_ne_zero,
      imp_false, not_not] at hq
    rw [SignalQueue.heldBytes, hq.1, (hk.tallied signal).idle hq.2]
    rfl

/-! ## The operations -/

section

variable {limits : QueueLimits} {h : Host}

theorem appendChunks_counted (signal : Signal) (chunks : List Bytes) (hk : Counted h) :
    Sat (appendChunks limits signal chunks) h (fun _ h' => Counted h') FailsCounted := by
  unfold appendChunks
  dsimp only
  split
  next => exact ⟨hk, by simp⟩
  next hfit =>
    rw [sat_bind, sat_get]
    refine Sat.bind (roomy_counted.makeRoom (by omega) hk (load_lt_rounds h)) (fun _ h₁ hk₁ => ?_) (fun _ _ he => he)
    refine Sat.bind (roomy_counted.rollIfFull limits signal hk₁) (fun _ h₂ hk₂ => ?_) (fun _ _ he => he)
    refine Sat.bind (writeHeader_counted _ hk₂) (fun _ h₃ ⟨hk₃, ha₃⟩ => ?_) (fun _ _ he => he)
    refine Sat.bind (writePayloads_counted chunks hk₃ ha₃) (fun _ h₄ ⟨hk₄, ha₄⟩ => ?_) (fun _ _ he => he)
    exact hk₄.countRecord ha₄ _ _

/-- **One operation keeps the count exact and ends**, if no unlink and no creation of a segment fails. -/
theorem Counted.step (hk : Counted h) {step : Step} (hf : step.faults.Exact) :
    Counted (h.step limits step).2 ∧ (h.step limits step).1 ≠ .error .spinning := by
  have hstart : Counted { h with faults := step.faults, now := step.now, instant := step.instant } :=
    ⟨hk.tallied, hk.account, hk.exactly, hf⟩
  have hsat : Sat (step.call.run limits)
      { h with faults := step.faults, now := step.now, instant := step.instant } (fun _ h' => Counted h')
      FailsCounted := by
    rcases step.call with ⟨signal, chunks⟩ | _ | _ | ⟨signal, acked⟩
    · exact appendChunks_counted signal chunks hstart
    · exact roomy_counted.sealIfDue limits hstart
    · exact (roomy_counted.sealAll hstart).mono (fun _ _ hpost => hpost.1) (fun _ _ he => he)
    · exact roomy_counted.commit hstart
  unfold Host.step
  unfold Sat at hsat
  rcases hex : (step.call.run limits).exec { h with faults := step.faults, now := step.now, instant := step.instant }
    with ⟨e | ⟨⟩, h'⟩ <;> rw [hex] at hsat
  · exact ⟨hsat.1, by simpa using hsat.2⟩
  · exact ⟨hsat, by simp⟩

theorem Counted.run (limits : QueueLimits) (hk : Counted h) {steps : List Step}
    (hf : ∀ step ∈ steps, step.faults.Exact) :
    Counted (h.run limits steps) := by
  induction steps generalizing h with
  | nil => exact hk
  | cons step steps ih =>
    rw [List.forall_mem_cons] at hf
    exact ih (hk.step hf.1).1 hf.2

end

/-- A queue is opened with its count exact. -/
theorem Opened.counted {zstdLen : Bytes → Nat} {o o' : Opening} {inner : Inner} (h : Opened zstdLen o inner o') :
    Counted (o'.host inner) := by
  have hw := h.allWhole
  refine ⟨fun signal => ?_, hw.account, h.underflow, ⟨by simp [Opening.host], by simp [Opening.host]⟩⟩
  have hf := hw.framed signal
  refine ⟨fun stream ha => ?_, hf.closedLt, hf.nodup, fun held hm => ?_, hf.idle⟩
  · obtain ⟨stream', ha', hseq, -, hle⟩ := hf.writer
    cases ha.symm.trans ha'
    exact ⟨hseq, hle⟩
  · obtain ⟨file, hfile, -⟩ := hf.files held hm
    exact Std.ExtTreeMap.mem_iff_isSome_getElem?.mpr (Option.isSome_of_eq_some hfile)

/-- What all the segments of a queue occupy. -/
def Host.heldBytes (h : Host) : Nat :=
  (Signal.all.map fun signal => ((h.queue signal).segments.map Held.bytes).sum).sum

theorem heldBytes_eq_total (h : Host) : h.heldBytes = h.total SignalQueue.heldBytes := by
  simp [Host.heldBytes, Host.total, SignalQueue.heldBytes, SignalQueue.segments, Signal.all, Nat.add_assoc]

/-- **The count of queued bytes is exact as long as unlinks and creations succeed.** From an open on, in every
state of a run of operations, returned or failed, in which no unlink and no creation of a segment fails, the
counter is the sum of the segments held, no subtraction has gone below zero, and no such operation makes room
for ever. -/
theorem queued_bytes_exact (zstdLen : Bytes → Nat) (limits : QueueLimits) (fresh : SenderId) (o o' : Opening)
    (inner : Inner) (hcalls : o.calls = none) (hopen : (openQueue zstdLen fresh).exec o = (.ok inner, o'))
    (steps : List Step) (hexact : ∀ step ∈ steps, step.faults.Exact) :
    ((o'.host inner).run limits steps).inner.stats.queuedBytes = ((o'.host inner).run limits steps).heldBytes ∧
      ((o'.host inner).run limits steps).inner.stats.underflow = false ∧
      ∀ step : Step, step.faults.Exact →
        (((o'.host inner).run limits steps).step limits step).1 ≠ .error .spinning := by
  have hk := (Opened.of_exec hcalls hopen).counted.run limits hexact
  exact ⟨hk.account.trans (heldBytes_eq_total _).symm, hk.exactly, fun step hf => (hk.step hf).2⟩

/-- A run with a write and a finish that fail: the count is exact after it. -/
theorem failed_writes_counted :
    ∃ inner o', (openQueue List.length [2]).exec freshOpening = (.ok inner, o') ∧
      ((o'.host inner).run tinyLimits
        [{ call := .append .logs [[9]], faults := { payloads := [.failed 0 6] }, now := 2, instant := 2 },
          { call := .append .logs [[7]], faults := {}, now := 2, instant := 2 },
          { call := .sealAll, faults := { finishes := [.failed] }, now := 2, instant := 2 }]).inner.stats.queuedBytes =
      ((o'.host inner).run tinyLimits
        [{ call := .append .logs [[9]], faults := { payloads := [.failed 0 6] }, now := 2, instant := 2 },
          { call := .append .logs [[7]], faults := {}, now := 2, instant := 2 },
          { call := .sealAll, faults := { finishes := [.failed] }, now := 2, instant := 2 }]).heldBytes := by
  obtain ⟨inner, o', hopen, -⟩ := openQueue_none List.length [2] (show freshOpening.calls = none from rfl)
  refine ⟨inner, o', hopen, (queued_bytes_exact List.length tinyLimits [2] _ o' inner rfl hopen _ ?_).1⟩
  simp only [List.forall_mem_cons, List.not_mem_nil, false_imp_iff, implies_true, and_true]
  exact ⟨⟨by simp, by simp⟩, ⟨by simp, by simp⟩, ⟨by simp, by simp⟩⟩

/-- With no segment closed and nothing appended to the open ones a round of making room changes nothing. -/
theorem dropOldest_idle {h : Host} (hidle : ∀ signal, (h.queue signal).closed = [] ∧
    (h.queue signal).activeSince = none) :
    dropOldest.exec h = (.ok (), h) := by
  have hnone : oldestSealed h.inner = none := by
    have hfront : ∀ signal, (h.inner.signals signal).front signal = none := fun signal => by
      have hc : (h.inner.signals signal).closed = [] := (hidle signal).1
      rw [SignalQueue.front, hc]
    simp [oldestSealed, hfront, minByStamp]
  have hroll : ∀ signal, (roll signal).exec h = (.ok (), h) := fun signal => by
    rw [roll, exec_bind_ok (exec_get h), if_pos (hidle signal).2, exec_pure]
  have hseal : sealIfNone.exec h = (.ok (), h) := by
    rw [sealIfNone, exec_bind_ok (exec_get h), hnone]
    change (roll .logs >>= fun _ => roll .traces >>= fun _ => roll .metrics >>= fun _ => pure ()).exec h = _
    rw [exec_bind_ok (hroll .logs), exec_bind_ok (hroll .traces), exec_bind_ok (hroll .metrics), exec_pure]
  rw [dropOldest, exec_bind_ok hseal, exec_bind_ok (exec_get h), hnone]
  exact exec_pure _ _

/-- In such a state a counter that is too high for the record keeps the loop going for ever. -/
theorem makeRoom_spins {limits : QueueLimits} {plainLen : Nat} {h : Host}
    (hidle : ∀ signal, (h.queue signal).closed = [] ∧ (h.queue signal).activeSince = none)
    (hfull : limits.maxBytes < h.inner.stats.queuedBytes + plainLen) (fuel : Nat) :
    (makeRoom limits plainLen fuel).exec h = (.error .spinning, h) := by
  induction fuel with
  | zero => rfl
  | succ fuel ih =>
    rw [makeRoom, exec_bind_ok (exec_get h), if_pos hfull, exec_bind_ok (dropOldest_idle hidle)]
    exact ih

/-- A segment of 18 bytes, which is what a record of five bytes compresses to, is committed and its unlink fails: the
counter keeps the bytes of a segment that is no longer held, and an append of one byte, which the queue of 20 bytes has
room for, never returns however many rounds it is given. And where the creation of the next segment fails, the counter
misses the bytes of the one that was closed. -/
theorem failed_unlink_spins :
    (∃ h, freshRun [(.append .logs [[7, 1, 2, 3, 4]], {}), (.sealAll, { finishes := [.done 18] }),
        (.commit .logs 1, { removes := [.failed] })] = some h ∧
      h.inner.stats.queuedBytes = 18 ∧ h.heldBytes = 0 ∧
      recordHeaderBytes + 1 ≤ tinyLimits.maxBytes ∧
      ∀ fuel, (makeRoom tinyLimits (recordHeaderBytes + 1) fuel).exec h = (.error .spinning, h)) ∧
    (freshRun [(.append .logs [[7]], {}), (.sealAll, { finishes := [.done 14], creates := [.failed false] })]).map
        (fun h => (h.inner.stats.queuedBytes, h.heldBytes)) = some (0, 14) := by
  refine ⟨?_, by decide +kernel⟩
  have hrun : (freshRun [(.append .logs [[7, 1, 2, 3, 4]], {}), (.sealAll, { finishes := [.done 18] }),
      (.commit .logs 1, { removes := [.failed] })]).map (fun h => (h.inner.stats.queuedBytes, h.heldBytes,
        Signal.all.map fun signal => ((h.queue signal).closed, (h.queue signal).activeSince))) =
      some (18, 0, [([], none), ([], none), ([], none)]) := by decide +kernel
  obtain ⟨h, hh, heq⟩ := Option.map_eq_some_iff.mp hrun
  simp only [Signal.all, List.map_cons, List.map_nil, Prod.mk.injEq, List.cons.injEq, and_true] at heq
  obtain ⟨hqueued, hheld, hlogs, htraces, hmetrics⟩ := heq
  refine ⟨h, hh, hqueued, hheld, by decide, fun fuel => makeRoom_spins ?_ (by rw [hqueued]; decide) fuel⟩
  rintro (_ | _ | _)
  · exact hlogs
  · exact htraces
  · exact hmetrics

end Collecty
