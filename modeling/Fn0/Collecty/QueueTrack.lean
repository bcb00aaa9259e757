/-
A relation between the states before and after that a write, a roll and the taking of a segment keep is kept
by every operation on the queue, whatever its file-system calls come to.
-/
import Mathlib
import Fn0.Lib.Track
import Fn0.Collecty.Queue

namespace Collecty

open Eff

/-- What has to be known of a relation so that the operations keep it. -/
structure Tracked (R : Host → Host → Prop) : Prop where
  faults : ∀ h faults, R h (h.setFaults faults)
  stats : ∀ h f, R h (h.modifyStats f)
  clock : ∀ h faults now instant, R h { h with faults, now, instant }
  emit : ∀ {h : Host} {signal : Signal} {stream : Stream} (taken : Bytes) (emitted : Nat),
    (h.queue signal).active = some stream → R h ((emit signal stream taken emitted).exec h).2
  roll : ∀ signal, Tracks R (roll signal)
  take : ∀ {h : Host} {signal : Signal} {held : Held} {rest : List Held}, (h.queue signal).closed = held :: rest →
    R h ((do modify (popFront signal rest); remove signal held.seq : Op Unit).exec h).2

/-- An unlink leaves the queue in memory alone. -/
theorem tracks_remove (signal : Signal) (seq : Nat) : Tracks (fun h h' => h'.inner = h.inner) (remove signal seq) := by
  intro h
  unfold remove
  rw [exec_bind_ok (exec_get h), exec_bind_ok (exec_set h _)]
  split
  · split <;> rfl
  · rfl

theorem closed_take (h : Host) (signal : Signal) (rest : List Held) (seq : Nat) :
    (((do modify (popFront signal rest); remove signal seq : Op Unit).exec h).2.queue signal).closed = rest := by
  rw [exec_bind_ok (exec_modify _ h)]
  have hinner := tracks_remove signal seq (popFront signal rest h)
  rw [Host.queue, hinner]
  simp [popFront, Host.setQueue, Inner.setSignal]

namespace Tracked

variable {R : Host → Host → Prop} [Std.Refl R] [IsTrans Host R]

omit [IsTrans Host R] in
theorem writeAll (hR : Tracked R) (signal : Signal) (plain : Bytes) (outcome : WriteOutcome) :
    Tracks R (writeAll signal plain outcome) := by
  refine tracks_get_bind fun h => ?_
  split
  · exact Std.Refl.refl h
  next stream ha =>
    split
    · exact hR.emit _ _ ha
    · exact hR.emit _ _ ha

theorem writeHeader (hR : Tracked R) (signal : Signal) (header : Bytes) : Tracks R (writeHeader signal header) := by
  refine tracks_get_bind fun h => ?_
  exact IsTrans.trans _ _ _ (hR.faults h _) (hR.writeAll signal header _ _)

theorem writePayload (hR : Tracked R) (signal : Signal) (chunk : Bytes) : Tracks R (writePayload signal chunk) := by
  refine tracks_get_bind fun h => ?_
  split
  · exact hR.writeAll _ _ _ h
  · exact IsTrans.trans _ _ _ (hR.faults h _) (hR.writeAll signal chunk _ _)

theorem sealAll (hR : Tracked R) : Tracks R sealAll := tracks_forM hR.roll _

theorem sealIfNone (hR : Tracked R) : Tracks R sealIfNone := by
  refine tracks_get.bind fun h => ?_
  split
  · exact hR.sealAll
  · exact tracks_pure _

theorem sealIfDue (hR : Tracked R) (limits : QueueLimits) : Tracks R (sealIfDue limits) := by
  refine tracks_forM (fun signal => tracks_get.bind fun h => ?_) _
  split
  · split
    · exact hR.roll signal
    · exact tracks_pure _
  · exact tracks_pure _

theorem rollIfFull (hR : Tracked R) (limits : QueueLimits) (signal : Signal) : Tracks R (rollIfFull limits signal) := by
  refine tracks_get.bind fun h => ?_
  split
  · exact hR.roll signal
  · exact tracks_pure _

omit [Std.Refl R] in
/-- Taking a segment, and what follows it. -/
theorem takeThen (hR : Tracked R) {h : Host} {signal : Signal} {held : Held} {rest : List Held} {α : Type} {x : Op α}
    (hclosed : (h.queue signal).closed = held :: rest)
    (hx : ∀ h', (h'.queue signal).closed = rest → R h' (x.exec h').2) :
    R h ((do modify (popFront signal rest); remove signal held.seq; x : Op α).exec h).2 := by
  have htake := hR.take hclosed
  have hrest := closed_take h signal rest held.seq
  rw [exec_bind_ok (exec_modify _ h)] at htake hrest ⊢
  rw [exec_bind]
  rcases hex : (remove signal held.seq).exec (popFront signal rest h) with ⟨e | _, h'⟩ <;> rw [hex] at htake hrest
  · exact htake
  · exact IsTrans.trans _ _ _ htake (hx h' hrest)

theorem dropOldest (hR : Tracked R) : Tracks R dropOldest := by
  refine hR.sealIfNone.bind fun _ => tracks_get_bind fun h => ?_
  split
  · exact Std.Refl.refl h
  · split
    · exact Std.Refl.refl h
    next held _ hclosed =>
      have hcount : Tracks R (modify (countDropped held) : Op Unit) := tracks_modify fun h => hR.stats h _
      exact hR.takeThen hclosed fun h' _ => hcount h'

theorem makeRoom (hR : Tracked R) (limits : QueueLimits) (plainLen fuel : Nat) :
    Tracks R (makeRoom limits plainLen fuel) := by
  induction fuel with
  | zero => exact tracks_throw _
  | succ fuel ih =>
    refine tracks_get.bind fun h => ?_
    split
    · exact hR.dropOldest.bind fun _ => ih
    · exact tracks_pure _

/-- What an append does before its record is counted. -/
theorem appendChunks (hR : Tracked R) (limits : QueueLimits) (signal : Signal) (chunks : List Bytes)
    (hrecord : ∀ plainLen payload h, R h (countRecord signal plainLen payload h)) :
    Tracks R (appendChunks limits signal chunks) := by
  unfold Collecty.appendChunks
  dsimp only
  split
  · exact tracks_throw _
  · exact tracks_get.bind fun h => (hR.makeRoom _ _ _).bind fun _ => (hR.rollIfFull _ _).bind fun _ =>
      (hR.writeHeader _ _).bind fun _ => (tracks_forM (hR.writePayload signal) _).bind fun _ =>
      tracks_modify (hrecord _ _)

/-- The loop of `commit` pops what is at the front: it runs with the closed segments of the signal. -/
theorem commitLoop (hR : Tracked R) (signal : Signal) (acked active : Nat) (closed : List Held) (freed : Nat)
    (h : Host) (hclosed : (h.queue signal).closed = closed) :
    R h ((commitLoop signal acked active closed freed).exec h).2 := by
  induction closed generalizing freed h with
  | nil => exact Std.Refl.refl h
  | cons front rest ih =>
    unfold Collecty.commitLoop
    split
    · exact Std.Refl.refl h
    · exact hR.takeThen hclosed fun h' hrest => ih _ h' hrest

theorem commit (hR : Tracked R) (signal : Signal) (acked : Nat) : Tracks R (commit signal acked) := by
  refine tracks_get_bind fun h => ?_
  have hloop := hR.commitLoop signal acked (h.queue signal).back.seq (h.queue signal).closed 0 h rfl
  rw [exec_bind]
  rcases hex : (Collecty.commitLoop signal acked (h.queue signal).back.seq (h.queue signal).closed 0).exec h
    with ⟨e | freed, h'⟩ <;> rw [hex] at hloop
  · exact hloop
  · have hcount : R h' (countFreed freed h') := hR.stats h' _
    exact IsTrans.trans _ _ _ hloop hcount

/-- **An operation keeps the relation**, if counting a record does. -/
theorem step (hR : Tracked R) (hrecord : ∀ signal plainLen payload h, R h (countRecord signal plainLen payload h))
    (limits : QueueLimits) (h : Host) (step : Step) : R h (h.step limits step).2 := by
  refine IsTrans.trans _ _ _ (hR.clock h step.faults step.now step.instant) ?_
  unfold Host.step
  cases step.call with
  | append signal chunks => exact hR.appendChunks limits signal chunks (hrecord signal) _
  | sealIfDue => exact hR.sealIfDue limits _
  | sealAll => exact hR.sealAll _
  | commit signal acked => exact hR.commit signal acked _

end Tracked

end Collecty
