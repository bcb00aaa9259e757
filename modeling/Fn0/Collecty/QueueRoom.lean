/-
Rolling segments and taking them out of the queue: what one roll and one unlink leave, and the rules that
follow for the operations made of them.

A condition on the state that a roll keeps, and that the taking of a segment with its bytes counted keeps
(`Roomy`), is kept by every operation that writes no record. The loop that makes room ends under such a
condition if it says that a queue with nothing left to take counts no bytes.
-/
import Mathlib
import Fn0.Collecty.QueueOrder

namespace Collecty

open Eff

theorem headD_of_all {α : Type} {P : α → Prop} {l : List α} {a : α} (h : ∀ x ∈ l, P x) (ha : P a) : P (l.headD a) := by
  cases l with
  | nil => exact ha
  | cons x l => exact h x (by simp)

theorem forall_mem_tail {α : Type} {P : α → Prop} {l : List α} (h : ∀ x ∈ l, P x) : ∀ x ∈ l.tail, P x :=
  fun x hx => h x (List.mem_of_mem_tail hx)

theorem mem_all (signal : Signal) : signal ∈ Signal.all := by
  cases signal <;> simp [Signal.all]

/-! ## What the signals hold -/

/-- What the segments of a signal occupy. -/
def SignalQueue.heldBytes (queue : SignalQueue) : Nat := (queue.closed.map Held.bytes).sum + queue.back.bytes

/-- The segments of a signal that making room can take: those closed, and one more that can be closed. -/
def SignalQueue.load (queue : SignalQueue) : Nat := queue.closed.length + if queue.activeSince = none then 0 else 1

/-- A quantity summed over the signals. -/
def Host.total (f : SignalQueue → Nat) (h : Host) : Nat :=
  f (h.queue .logs) + f (h.queue .traces) + f (h.queue .metrics)

/-- The sum follows a change to one signal. -/
theorem total_change (f : SignalQueue → Nat) (h h' : Host) (signal : Signal)
    (hothers : ∀ signal' ≠ signal, h'.queue signal' = h.queue signal') :
    h'.total f + f (h.queue signal) = h.total f + f (h'.queue signal) := by
  unfold Host.total
  cases signal
  · rw [hothers .traces (by decide), hothers .metrics (by decide)]; omega
  · rw [hothers .logs (by decide), hothers .metrics (by decide)]; omega
  · rw [hothers .logs (by decide), hothers .traces (by decide)]; omega

theorem le_total (f : SignalQueue → Nat) (h : Host) (signal : Signal) : f (h.queue signal) ≤ h.total f := by
  unfold Host.total
  cases signal <;> omega

theorem total_eq_zero {f : SignalQueue → Nat} {h : Host} (hzero : ∀ signal, f (h.queue signal) = 0) :
    h.total f = 0 := by
  simp [Host.total, hzero]

theorem load_lt_rounds (h : Host) : h.total SignalQueue.load < h.inner.rounds := by
  have hle : ∀ signal, (h.queue signal).load ≤ (h.inner.signals signal).segments.length := fun signal => by
    simp only [SignalQueue.load, SignalQueue.segments, List.length_append, List.length_singleton]
    split <;> simp [Host.queue]
  have hlogs := hle .logs
  have htraces := hle .traces
  have hmetrics := hle .metrics
  simp only [Host.total, Inner.rounds, Signal.all, List.map_cons, List.map_nil, List.sum_cons, List.sum_nil]
  omega

section

variable {h h' : Host}

/-! ## A roll -/

/-- The state after a roll in which no call fails. -/
def rolled (signal : Signal) (stream : Stream) (emitted : Nat) (h : Host) : Host :=
  let queue := h.queue signal
  let bytes := stream.written + emitted
  let next := queue.back.seq + 1
  let stamp := h.inner.stamped + 1
  let queue' : SignalQueue := {
    closed := queue.closed ++ [{ queue.back with bytes, stamp }]
    back := { seq := next, bytes := 0, stamp := 0 }
    active := some { seq := next, plain := [], written := 0 }
    activeSince := none }
  let faults := { h.faults with finishes := h.faults.finishes.tail, creates := h.faults.creates.tail }
  ((({ h with inner := { h.inner with stamped := stamp } }.setFile signal stream.seq
    ⟨bytes, h.now, stream.plain, true⟩).makeFile signal next).setQueue signal queue').setFaults faults
    |>.modifyStats fun stats => { stats.checkSub bytes queue.back.bytes with
      queuedBytes := stats.queuedBytes + (bytes - queue.back.bytes) }

theorem exec_roll {signal : Signal} {stream : Stream} {emitted : Nat} (hsince : (h.queue signal).activeSince ≠ none)
    (ha : (h.queue signal).active = some stream) (hfin : h.faults.finishes.headD (.done 0) = .done emitted)
    (hcre : h.faults.creates.headD .done = .done) :
    (roll signal).exec h = (.ok (), rolled signal stream emitted h) := by
  have ha' : (h.inner.signals signal).active = some stream := ha
  have hs' : (h.inner.signals signal).activeSince ≠ none := hsince
  rw [List.headD_eq_head?_getD] at hfin hcre
  simp [roll, closeBack, finish, reusing, exec_bind, rolled, Host.queue, ha', hs', hfin, hcre, Host.setQueue,
    Host.setFile, Host.setFaults, Inner.setSignal, sealBack, pushBack, startSegment, Host.makeFile,
    Host.modifyStats, QueueStats.checkSub, SignalQueue.segments]
  rfl

theorem queue_rolled_ne {signal signal' : Signal} (hne : signal' ≠ signal) (stream : Stream) (emitted : Nat) :
    (rolled signal stream emitted h).queue signal' = h.queue signal' :=
  Host.queue_setQueue_ne _ _ _ hne

theorem dirs_rolled_ne {signal signal' : Signal} (hne : signal' ≠ signal) (stream : Stream) (emitted : Nat) :
    (rolled signal stream emitted h).disk.dirs signal' = h.disk.dirs signal' :=
  (Host.dirs_makeFile_ne _ _ _ hne).trans (Host.dirs_setFile_ne _ _ _ _ hne)

/-- What a roll that returns has done to the segments there are to take: the signal's is closed. -/
structure Rolled (signal : Signal) (h h' : Host) : Prop where
  load : h'.total SignalQueue.load ≤ h.total SignalQueue.load
  since : (h'.queue signal).activeSince = none
  others : ∀ signal' ≠ signal, h'.queue signal' = h.queue signal'

theorem Rolled.of_since {signal : Signal} (hsince : (h.queue signal).activeSince = none) : Rolled signal h h :=
  ⟨le_rfl, hsince, fun _ _ => rfl⟩

theorem Rolled.of_rolled {signal : Signal} (hsince : (h.queue signal).activeSince ≠ none) (stream : Stream)
    (emitted : Nat) : Rolled signal h (rolled signal stream emitted h) := by
  refine ⟨?_, by simp [rolled], fun signal' hne => queue_rolled_ne hne stream emitted⟩
  have htotal := total_change SignalQueue.load h (rolled signal stream emitted h) signal
    (fun signal' hne => queue_rolled_ne hne stream emitted)
  have hload : ((rolled signal stream emitted h).queue signal).load = (h.queue signal).load := by
    simp [rolled, SignalQueue.load, hsince]
  omega

/-! ## Taking a segment -/

/-- The state after a segment is taken out of the queue and unlinked. -/
def taken (signal : Signal) (rest : List Held) (seq : Nat) (h : Host) : Host :=
  ((popFront signal rest h).setFaults { h.faults with removes := h.faults.removes.tail }).removeFile signal seq

theorem exec_take {signal : Signal} {rest : List Held} {seq : Nat} {α : Type} (x : Op α)
    (hdone : h.faults.removes.headD .done = .done) (hfile : (h.disk.dirs signal).contains seq) :
    (do modify (popFront signal rest); remove signal seq; x : Op α).exec h = x.exec (taken signal rest seq h) := by
  have hcontains : ((popFront signal rest h).disk.dirs signal).contains seq := hfile
  rw [exec_bind_ok (exec_modify _ h), exec_bind_ok]
  rw [remove, exec_bind_ok (exec_get _), exec_bind_ok (exec_set _ _)]
  have hd : (popFront signal rest h).faults.removes.headD .done = .done := hdone
  rw [hd]
  simp only [hcontains, if_true, exec_modify]
  rfl

theorem queue_taken (signal : Signal) (rest : List Held) (seq : Nat) :
    (taken signal rest seq h).queue signal = { h.queue signal with closed := rest } :=
  Host.queue_setQueue_self _ _ _

theorem queue_taken_ne {signal signal' : Signal} (hne : signal' ≠ signal) (rest : List Held) (seq : Nat) :
    (taken signal rest seq h).queue signal' = h.queue signal' :=
  Host.queue_setQueue_ne _ _ _ hne

theorem load_taken {signal : Signal} {front : Held} {rest : List Held} (hc : (h.queue signal).closed = front :: rest) :
    (taken signal rest front.seq h).total SignalQueue.load < h.total SignalQueue.load := by
  have htotal := total_change SignalQueue.load h (taken signal rest front.seq h) signal
    (fun signal' hne => queue_taken_ne hne rest front.seq)
  have hload : ((taken signal rest front.seq h).queue signal).load + 1 = (h.queue signal).load := by
    rw [queue_taken, SignalQueue.load, SignalQueue.load, hc, List.length_cons]
    dsimp only
    omega
  omega

theorem oldestSealed_none {inner : Inner} (hnone : oldestSealed inner = none) (signal : Signal) :
    (inner.signals signal).closed = [] := by
  have hmin : ∀ l : List (Nat × Signal × Nat), minByStamp l = none → l = [] := by
    intro l hl
    cases l with
    | nil => rfl
    | cons x xs =>
      unfold minByStamp at hl
      split at hl
      · cases hl
      · split at hl <;> cases hl
  have hfronts := List.filterMap_eq_nil_iff.mp (hmin _ (Option.map_eq_none_iff.mp hnone)) signal (mem_all signal)
  unfold SignalQueue.front at hfronts
  split at hfronts
  next hclosed => exact hclosed
  next => cases hfronts

end

/-! ## The rules -/

/-- What has to be known of a condition on states, and of what is allowed of the errors, so that the operations
that write no record keep to them. The unlinks succeed. -/
structure Roomy (I : Host → Prop) (E : QueueError → Host → Prop) : Prop where
  stats : ∀ {h : Host} {f : QueueStats → QueueStats}, (f h.inner.stats).queuedBytes = h.inner.stats.queuedBytes →
    (f h.inner.stats).underflow = h.inner.stats.underflow → I h → I (h.modifyStats f)
  roll : ∀ {h : Host} (signal : Signal), I h → Sat (roll signal) h (fun _ h' => I h' ∧ Rolled signal h h') E
  unlinks : ∀ {h : Host} {signal : Signal} {front : Held} {rest : List Held} {freed : Nat}, I (countFreed freed h) →
    (h.queue signal).closed = front :: rest →
    h.faults.removes.headD .done = .done ∧ (h.disk.dirs signal).contains front.seq
  take : ∀ {h : Host} {signal : Signal} {front : Held} {rest : List Held} {freed : Nat}, I (countFreed freed h) →
    (h.queue signal).closed = front :: rest → I (countFreed (freed + front.bytes) (taken signal rest front.seq h))
  empty : ∀ {h : Host}, I h → h.total SignalQueue.load = 0 → h.inner.stats.queuedBytes = 0

namespace Roomy

variable {I : Host → Prop} {E : QueueError → Host → Prop} {h : Host}

/-- Rolling some of the signals. -/
theorem rolls (hI : Roomy I E) {signals : List Signal} (hi : I h) :
    Sat (signals.forM Collecty.roll) h
      (fun _ h' => I h' ∧ h'.total SignalQueue.load ≤ h.total SignalQueue.load ∧
        (∀ signal ∈ signals, (h'.queue signal).activeSince = none) ∧
        ∀ signal, (h.queue signal).activeSince = none → (h'.queue signal).activeSince = none) E := by
  induction signals generalizing h with
  | nil => exact ⟨hi, le_rfl, by simp, fun _ h => h⟩
  | cons signal signals ih =>
    refine Sat.bind (hI.roll signal hi) (fun _ h₁ ⟨hi₁, hr⟩ => ?_) (fun _ _ he => he)
    refine (ih hi₁).mono (fun _ h₂ ⟨hi₂, hload, hrest, hkeep⟩ => ?_) (fun _ _ he => he)
    refine ⟨hi₂, hload.trans hr.load, ?_, fun signal' hsince => hkeep signal' ?_⟩
    · rw [List.forall_mem_cons]
      exact ⟨hkeep signal hr.since, hrest⟩
    · by_cases hs : signal' = signal
      · exact hs ▸ hr.since
      · rw [hr.others signal' hs]; exact hsince

theorem sealAll (hI : Roomy I E) (hi : I h) :
    Sat sealAll h
      (fun _ h' => I h' ∧ h'.total SignalQueue.load ≤ h.total SignalQueue.load ∧
        ∀ signal, (h'.queue signal).activeSince = none) E :=
  (hI.rolls hi).mono (fun _ _ ⟨hi', hl, hall, _⟩ => ⟨hi', hl, fun signal => hall signal (mem_all signal)⟩)
    (fun _ _ he => he)

theorem sealIfDue (hI : Roomy I E) (limits : QueueLimits) (hi : I h) :
    Sat (sealIfDue limits) h (fun _ h' => I h') E := by
  unfold Collecty.sealIfDue
  generalize Signal.all = signals
  induction signals generalizing h with
  | nil => exact hi
  | cons signal signals ih =>
    refine Sat.bind (show Sat _ h (fun _ h' => I h') E from ?_) (fun _ h₁ hi₁ => ih hi₁) (fun _ _ he => he)
    rw [sat_bind, sat_get]
    split
    next =>
      split
      next => exact (hI.roll signal hi).mono (fun _ _ hpost => hpost.1) (fun _ _ he => he)
      next => exact hi
    next => exact hi

theorem rollIfFull (hI : Roomy I E) (limits : QueueLimits) (signal : Signal) (hi : I h) :
    Sat (rollIfFull limits signal) h (fun _ h' => I h') E := by
  rw [Collecty.rollIfFull, sat_bind, sat_get]
  split
  next => exact (hI.roll signal hi).mono (fun _ _ hpost => hpost.1) (fun _ _ he => he)
  next => exact hi

theorem sealIfNone (hI : Roomy I E) (hi : I h) :
    Sat sealIfNone h
      (fun _ h' => I h' ∧ h'.total SignalQueue.load ≤ h.total SignalQueue.load ∧
        (oldestSealed h'.inner = none → h'.total SignalQueue.load = 0)) E := by
  rw [Collecty.sealIfNone, sat_bind, sat_get]
  split
  next =>
    refine (hI.sealAll hi).mono (fun _ h' ⟨hi', hl, hall⟩ => ⟨hi', hl, fun hnone => ?_⟩) (fun _ _ he => he)
    refine total_eq_zero fun signal => ?_
    have hclosed : (h'.queue signal).closed = [] := oldestSealed_none hnone signal
    simp [SignalQueue.load, hall signal, hclosed]
  next hsome => exact ⟨hi, le_rfl, fun hnone => absurd (by rw [hnone]; rfl) hsome⟩

/-- Dropping a segment differs from freeing its bytes in the counts of what was dropped. -/
theorem countDropped (hI : Roomy I E) {held : Held} (hi : I (countFreed held.bytes h)) : I (countDropped held h) :=
  hI.stats (f := fun stats => { stats with
    droppedBytes := stats.droppedBytes + held.bytes
    droppedSegments := stats.droppedSegments + 1 }) rfl rfl hi

theorem countFreed_zero (hI : Roomy I E) (hi : I h) : I (countFreed 0 h) :=
  hI.stats rfl (by simp [QueueStats.checkSub]) hi

/-- While there is something to take, a round takes it. -/
theorem dropOldest (hI : Roomy I E) (hi : I h) (hload : 0 < h.total SignalQueue.load) :
    Sat dropOldest h (fun _ h' => I h' ∧ h'.total SignalQueue.load < h.total SignalQueue.load) E := by
  refine Sat.bind (hI.sealIfNone hi) (fun _ h₁ ⟨hi₁, hl₁, hnone⟩ => ?_) (fun _ _ he => he)
  rw [sat_bind, sat_get]
  rcases hold : oldestSealed h₁.inner with _ | ⟨signal, seq⟩
  · refine ⟨hi₁, ?_⟩
    rw [hnone hold]
    exact hload
  · obtain ⟨held, rest, hc, -⟩ := oldestSealed_front hold
    have hc : (h₁.queue signal).closed = held :: rest := hc
    have hfreed := hI.countFreed_zero hi₁
    obtain ⟨hdone, hfile⟩ := hI.unlinks hfreed hc
    have htaken := hI.take hfreed hc
    rw [Nat.zero_add] at htaken
    dsimp only
    simp only [hc]
    refine sat_of_exec_ok ((exec_take (modify (Collecty.countDropped held)) hdone hfile).trans (exec_modify _ _)) ?_
    exact ⟨hI.countDropped htaken, (load_taken hc).trans_le hl₁⟩

/-- The loop that makes room ends: a record that fits an empty queue fits after at most as many rounds as
there are segments to take. -/
theorem makeRoom (hI : Roomy I E) {limits : QueueLimits} {plainLen fuel : Nat} (hfit : plainLen ≤ limits.maxBytes)
    (hi : I h) (hfuel : h.total SignalQueue.load < fuel) :
    Sat (makeRoom limits plainLen fuel) h (fun _ h' => I h') E := by
  induction fuel generalizing h with
  | zero => exact absurd hfuel (Nat.not_lt_zero _)
  | succ fuel ih =>
    rw [Collecty.makeRoom, sat_bind, sat_get]
    split
    next hfull =>
      have hload : 0 < h.total SignalQueue.load := by
        by_contra hno
        have hempty := hI.empty hi (by omega)
        omega
      exact Sat.bind (hI.dropOldest hi hload) (fun _ h₁ ⟨hi₁, hlt⟩ => ih hi₁ (by omega)) (fun _ _ he => he)
    next => exact hi

theorem commitLoop (hI : Roomy I E) {signal : Signal} {acked active : Nat} (closed : List Held) (freed : Nat)
    (hi : I (countFreed freed h)) (hc : (h.queue signal).closed = closed) :
    Sat (commitLoop signal acked active closed freed) h (fun freed' h' => I (countFreed freed' h')) E := by
  induction closed generalizing freed h with
  | nil => exact hi
  | cons front rest ih =>
    unfold Collecty.commitLoop
    split
    next => exact hi
    next =>
      have hrest : ((taken signal rest front.seq h).queue signal).closed = rest := by rw [queue_taken]
      have hnext := ih (freed + front.bytes) (hI.take hi hc) hrest
      obtain ⟨hdone, hfile⟩ := hI.unlinks hi hc
      unfold Sat at hnext ⊢
      rwa [exec_take _ hdone hfile]

theorem commit (hI : Roomy I E) {signal : Signal} {acked : Nat} (hi : I h) :
    Sat (commit signal acked) h (fun _ h' => I h') E := by
  rw [Collecty.commit, sat_bind, sat_get]
  exact Sat.bind (hI.commitLoop _ 0 (hI.countFreed_zero hi) rfl) (fun _ _ hpost => hpost) (fun _ _ he => he)

end Roomy

end Collecty
