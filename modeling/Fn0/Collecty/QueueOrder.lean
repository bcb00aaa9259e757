/-
The order in which the segments of a signal are held, offered and retired.

An operation only takes segments from the front and puts the next number at the back (`Ahead`), so an order
that holds when the queue is opened holds ever after. At open the order comes from the times of the files:
it is the order of the numbers exactly when the times do not run against them.
-/
import Mathlib
import Fn0.Collecty.QueueTrack
import Fn0.Collecty.QueueOpen

namespace Collecty

open Eff

/-! ## What an operation does to the numbers held -/

/-- The numbers a signal's segments have, front first. -/
def Host.numbers (h : Host) (signal : Signal) : List Nat := (h.queue signal).segments.map Held.seq

/-- The numbers of every signal increase towards the back. -/
def InOrder (h : Host) : Prop := ∀ signal, (h.numbers signal).Pairwise (· < ·)

/-- An increasing list has become another one, and nothing below it has come in. -/
def AheadList (l l' : List Nat) : Prop :=
  l.Pairwise (· < ·) → l'.Pairwise (· < ·) ∧ ∀ n, (∀ x ∈ l, n ≤ x) → ∀ x ∈ l', n ≤ x

def Ahead (h h' : Host) : Prop := ∀ signal, AheadList (h.numbers signal) (h'.numbers signal)

theorem AheadList.refl (l : List Nat) : AheadList l l := fun h => ⟨h, fun _ hn => hn⟩

theorem AheadList.trans {l l' l'' : List Nat} (h : AheadList l l') (h' : AheadList l' l'') : AheadList l l'' := by
  intro hl
  obtain ⟨hl', hlow⟩ := h hl
  obtain ⟨hl'', hlow'⟩ := h' hl'
  exact ⟨hl'', fun n hn => hlow' n (hlow n hn)⟩

theorem AheadList.tail (x : Nat) (l : List Nat) : AheadList (x :: l) l := by
  intro h
  exact ⟨(List.pairwise_cons.mp h).2, fun n hn y hy => hn y (List.mem_cons_of_mem x hy)⟩

theorem AheadList.concat (l : List Nat) (x : Nat) : AheadList (l ++ [x]) (l ++ [x] ++ [x + 1]) := by
  intro h
  have hle : ∀ y ∈ l ++ [x], y ≤ x := by
    intro y hy
    rcases List.mem_append.mp hy with hy | hy
    · exact ((List.pairwise_append.mp h).2.2 y hy x (by simp)).le
    · simp at hy; omega
  refine ⟨List.pairwise_append.mpr ⟨h, by simp, fun y hy z hz => ?_⟩, fun n hn y hy => ?_⟩
  · have := hle y hy
    simp at hz
    omega
  · rcases List.mem_append.mp hy with hy | hy
    · exact hn y hy
    · have := hn x (by simp)
      simp at hy
      omega

instance : Std.Refl Ahead := ⟨fun _ _ => .refl _⟩

instance : IsTrans Host Ahead := ⟨fun _ _ _ h h' signal => (h signal).trans (h' signal)⟩

/-- The numbers held are the same. -/
def Same (h h' : Host) : Prop := ∀ signal, h'.numbers signal = h.numbers signal

instance : Std.Refl Same := ⟨fun _ _ => rfl⟩

instance : IsTrans Host Same := ⟨fun _ _ _ h h' signal => (h' signal).trans (h signal)⟩

theorem Same.ahead {h h' : Host} (hs : Same h h') : Ahead h h' := by
  intro signal
  rw [hs signal]
  exact .refl _

theorem numbers_eq (h : Host) (signal : Signal) :
    h.numbers signal = (h.queue signal).closed.map Held.seq ++ [(h.queue signal).back.seq] := by
  simp [Host.numbers, SignalQueue.segments]

theorem numbers_setQueue (h : Host) (signal signal' : Signal) (queue : SignalQueue) :
    (h.setQueue signal queue).numbers signal' =
      if signal' = signal then queue.segments.map Held.seq else h.numbers signal' := by
  by_cases hs : signal' = signal
  · subst hs; simp [Host.numbers, Host.queue, Host.setQueue, Inner.setSignal]
  · simp [Host.numbers, Host.queue, Host.setQueue, Inner.setSignal, hs]

theorem ahead_setQueue {h : Host} {signal : Signal} {queue : SignalQueue}
    (hq : AheadList (h.numbers signal) (queue.segments.map Held.seq)) : Ahead h (h.setQueue signal queue) := by
  intro signal'
  rw [numbers_setQueue]
  by_cases hs : signal' = signal
  · subst hs; rw [if_pos rfl]; exact hq
  · rw [if_neg hs]; exact .refl _

theorem same_setQueue {h : Host} {signal : Signal} {queue : SignalQueue}
    (hq : queue.segments.map Held.seq = h.numbers signal) : Same h (h.setQueue signal queue) := by
  intro signal'
  rw [numbers_setQueue]
  by_cases hs : signal' = signal
  · subst hs; rw [if_pos rfl]; exact hq
  · rw [if_neg hs]

theorem same_of_inner {h h' : Host} (hi : h'.inner = h.inner) : Same h h' := by
  intro signal
  simp only [Host.numbers, Host.queue, hi]

theorem tracks_finish (signal : Signal) : Tracks Same (finish signal) := by
  refine tracks_get_bind fun h => ?_
  split
  · exact fun _ => rfl
  next stream _ =>
    have hset : Same h ((h.setQueue signal { h.queue signal with active := none }).setFaults
        { h.faults with finishes := h.faults.finishes.tail }) := same_setQueue rfl
    rw [exec_bind_ok (exec_set h _)]
    refine IsTrans.trans _ _ _ hset ?_
    split
    · exact Tracks.bind (R := Same) (tracks_modify fun h _ => rfl) (fun _ => tracks_pure _) _
    · exact tracks_throw _ _

theorem tracks_reusing (signal : Signal) (seq : Nat) : Tracks Same (reusing signal seq) := by
  refine tracks_get_bind fun h => ?_
  rw [exec_bind_ok (exec_set h _)]
  split
  · exact same_setQueue (h := h) rfl
  · exact fun _ => rfl
  · exact fun _ => rfl

theorem tracks_closeBack (signal : Signal) : Tracks Same (closeBack signal) := by
  have hstamp : Tracks Same
      (modify fun h => { h with inner := { h.inner with stamped := h.inner.stamped + 1 } } : Op Unit) :=
    tracks_modify fun h _ => rfl
  refine hstamp.bind fun _ => (tracks_finish signal).bind fun bytes => tracks_get_bind fun h => ?_
  exact same_setQueue (h := h) (by simp [numbers_eq, SignalQueue.segments])

theorem Same.back_eq {h h' : Host} (hs : Same h h') (signal : Signal) :
    (h'.queue signal).back.seq = (h.queue signal).back.seq := by
  have := hs signal
  rw [numbers_eq, numbers_eq] at this
  exact (List.append_singleton_inj.mp this).2

theorem ahead_pushBack {h : Host} {signal : Signal} (grew : Nat) :
    Ahead h (pushBack signal ((h.queue signal).back.seq + 1) grew h) := by
  refine ahead_setQueue ?_
  have hpush := AheadList.concat ((h.queue signal).closed.map Held.seq) (h.queue signal).back.seq
  simpa [Host.numbers, SignalQueue.segments] using hpush

/-- **A roll puts the next number at the back**, or, when the file system refuses it, changes no number. -/
theorem tracks_roll (signal : Signal) : Tracks Ahead (roll signal) := by
  refine tracks_get_bind fun h => ?_
  split
  · exact Std.Refl.refl h
  · -- up to the push the numbers stay as they are, so the one pushed follows the one at the back
    suffices hsat : Sat (do
        let grew ← closeBack signal
        reusing signal ((h.queue signal).back.seq + 1)
        modify (pushBack signal ((h.queue signal).back.seq + 1) grew)) h
        (fun _ h' => Ahead h h') (fun _ h' => Ahead h h') from tracks_outcome hsat
    refine ((tracks_closeBack signal).sat h).bind (fun grew h₁ hs₁ => ?_) (fun _ _ hs => hs.ahead)
    refine ((tracks_reusing signal _).sat h₁).bind (fun _ h₂ hs₂ => ?_)
      (fun _ _ hs => (IsTrans.trans _ _ _ hs₁ hs).ahead)
    have hs : Same h h₂ := IsTrans.trans _ _ _ hs₁ hs₂
    rw [sat_modify, ← hs.back_eq signal]
    exact IsTrans.trans _ _ _ hs.ahead (ahead_pushBack grew)

theorem ahead_popFront {h : Host} {signal : Signal} {held : Held} {rest : List Held}
    (hclosed : (h.queue signal).closed = held :: rest) : Ahead h (popFront signal rest h) := by
  refine ahead_setQueue ?_
  rw [numbers_eq, hclosed]
  simpa [SignalQueue.segments] using AheadList.tail held.seq (rest.map Held.seq ++ [(h.queue signal).back.seq])

theorem tracked_ahead : Tracked Ahead where
  faults _ _ := Same.ahead fun _ => rfl
  stats _ _ := Same.ahead fun _ => rfl
  clock _ _ _ _ := Same.ahead fun _ => rfl
  emit _ _ _ := Same.ahead (same_setQueue rfl)
  roll := tracks_roll
  take {h signal held rest} hclosed := by
    have hremove := same_of_inner (tracks_remove signal held.seq (popFront signal rest h))
    exact IsTrans.trans _ _ _ (ahead_popFront hclosed) hremove.ahead

theorem ahead_countRecord (signal : Signal) (plainLen : Nat) (payload : Bytes) (h : Host) :
    Ahead h (countRecord signal plainLen payload h) :=
  Same.ahead (same_setQueue (h := h) (by simp [numbers_eq, SignalQueue.segments]))

/-- **What an operation does to the numbers held**, whichever it is and whatever its calls come to. -/
theorem ahead_step (limits : QueueLimits) (h : Host) (step : Step) : Ahead h (h.step limits step).2 :=
  tracked_ahead.step ahead_countRecord limits h step

theorem ahead_run (limits : QueueLimits) (h : Host) (steps : List Step) : Ahead h (h.run limits steps) := by
  induction steps generalizing h with
  | nil => exact fun signal => .refl _
  | cons step steps ih => exact IsTrans.trans _ _ _ (ahead_step limits h step) (ih _)

theorem InOrder.ahead {h h' : Host} (ho : InOrder h) (ha : Ahead h h') : InOrder h' :=
  fun signal => (ha signal (ho signal)).1

/-! ## What is offered -/

theorem mem_of_minByStamp {l : List (Nat × Signal × Nat)} {x : Nat × Signal × Nat} (h : minByStamp l = some x) :
    x ∈ l := by
  induction l with
  | nil => cases h
  | cons y l ih =>
    unfold minByStamp at h
    split at h
    · cases h; simp
    next z hz =>
      split at h <;> cases h
      · exact List.mem_cons_of_mem _ (ih hz)
      · simp

/-- What is offered is the front of its signal's closed segments. -/
theorem oldestSealed_front {inner : Inner} {signal : Signal} {seq : Nat}
    (h : oldestSealed inner = some (signal, seq)) :
    ∃ held rest, (inner.signals signal).closed = held :: rest ∧ held.seq = seq := by
  simp only [oldestSealed, Option.map_eq_some_iff] at h
  obtain ⟨⟨stamp, owner, n⟩, hmin, heq⟩ := h
  cases heq
  obtain ⟨owner, -, hfront⟩ := List.mem_filterMap.mp (mem_of_minByStamp hmin)
  unfold SignalQueue.front at hfront
  split at hfront
  · cases hfront
  next held rest hclosed => cases hfront; exact ⟨held, rest, hclosed, rfl⟩

theorem offered_le {h : Host} (ho : InOrder h) {signal : Signal} {seq : Nat}
    (hoffer : oldestSealed h.inner = some (signal, seq)) : ∀ x ∈ h.numbers signal, seq ≤ x := by
  obtain ⟨held, rest, hclosed, rfl⟩ := oldestSealed_front hoffer
  have hsorted := ho signal
  rw [numbers_eq, show (h.queue signal).closed = held :: rest from hclosed] at hsorted ⊢
  rw [List.map_cons, List.cons_append, List.pairwise_cons] at hsorted
  intro x hx
  rcases List.mem_cons.mp hx with rfl | hx
  · exact le_refl _
  · exact (hsorted.1 x hx).le

theorem offered_mem {h : Host} {signal : Signal} {seq : Nat}
    (hoffer : oldestSealed h.inner = some (signal, seq)) : seq ∈ h.numbers signal := by
  obtain ⟨held, rest, hclosed, rfl⟩ := oldestSealed_front hoffer
  rw [numbers_eq, show (h.queue signal).closed = held :: rest from hclosed]
  simp

/-- The segments offered along a run: what `oldest_sealed` answers before each operation and at the end. -/
def Host.offers (limits : QueueLimits) (h : Host) : List Step → List (Signal × Nat)
  | [] => (oldestSealed h.inner).toList
  | step :: steps => (oldestSealed h.inner).toList ++ Host.offers limits (h.step limits step).2 steps

/-- The numbers offered of one signal. -/
def offersOf (signal : Signal) (offers : List (Signal × Nat)) : List Nat :=
  offers.filterMap fun offer => if offer.1 = signal then some offer.2 else none

theorem le_of_mem_offers {limits : QueueLimits} {signal : Signal} {n : Nat} (steps : List Step) :
    ∀ (h : Host), InOrder h → (∀ x ∈ h.numbers signal, n ≤ x) →
      ∀ x ∈ offersOf signal (h.offers limits steps), n ≤ x := by
  have hone : ∀ h : Host, (∀ x ∈ h.numbers signal, n ≤ x) →
      ∀ x ∈ offersOf signal (oldestSealed h.inner).toList, n ≤ x := by
    intro h hlow x hx
    simp only [offersOf, List.mem_filterMap, Option.mem_toList] at hx
    obtain ⟨⟨owner, seq⟩, hoffer, hif⟩ := hx
    split at hif
    next heq => cases hif; cases heq; exact hlow _ (offered_mem hoffer)
    next => cases hif
  induction steps with
  | nil => exact fun h _ hlow => hone h hlow
  | cons step steps ih =>
    intro h ho hlow x hx
    rw [Host.offers, offersOf, List.filterMap_append, List.mem_append] at hx
    have ha := ahead_step limits h step
    rcases hx with hx | hx
    · exact hone h hlow x hx
    · exact ih _ (ho.ahead ha) ((ha signal (ho signal)).2 n hlow) x hx

/-- **No segment of a signal is offered after a higher one** in a run that starts in order. -/
theorem offers_increase {limits : QueueLimits} (signal : Signal) (steps : List Step) :
    ∀ h : Host, InOrder h → (offersOf signal (h.offers limits steps)).Pairwise (· ≤ ·) := by
  induction steps with
  | nil =>
    intro h _
    rw [Host.offers]
    cases oldestSealed h.inner with
    | none => simp [offersOf]
    | some offer => by_cases hs : offer.1 = signal <;> simp [offersOf, hs]
  | cons step steps ih =>
    intro h ho
    have ha := ahead_step limits h step
    rw [Host.offers, offersOf, List.filterMap_append]
    refine List.pairwise_append.mpr ⟨?_, ih _ (ho.ahead ha), fun n hn x hx => ?_⟩
    · cases oldestSealed h.inner with
      | none => simp
      | some offer => by_cases hs : offer.1 = signal <;> simp [hs]
    · simp only [List.mem_filterMap, Option.mem_toList] at hn
      obtain ⟨⟨owner, seq⟩, hoffer, hif⟩ := hn
      split at hif
      next heq =>
        cases hif
        cases heq
        exact le_of_mem_offers steps _ (ho.ahead ha)
          ((ha _ (ho _)).2 _ (offered_le ho hoffer)) x hx
      next => cases hif

/-! ## What is retired -/

/-- What the loop of `commit` unlinks when every unlink succeeds, for closed segments in order. -/
structure Retired (signal : Signal) (acked : Nat) (closed : List Held) (h h' : Host) : Prop where
  held : (h'.queue signal).closed = closed.filter (fun held => acked < held.seq)
  dir : ∀ n, (h'.disk.dirs signal)[n]? =
    if n ≤ acked ∧ n ∈ closed.map Held.seq then none else (h.disk.dirs signal)[n]?
  others : ∀ signal' ≠ signal, h'.disk.dirs signal' = h.disk.dirs signal'

theorem remove_sat (signal : Signal) (seq : Nat) (h : Host) :
    Sat (remove signal seq) h
      (fun _ h' => h'.inner = h.inner ∧ h'.disk = h.disk.modifyDir signal (·.erase seq)) (fun _ _ => True) := by
  unfold remove
  rw [sat_bind, sat_get, sat_bind, sat_set]
  split
  · split
    · exact ⟨rfl, rfl⟩
    · trivial
  · trivial

theorem commitLoop_sat (signal : Signal) (acked active : Nat) (closed : List Held)
    (hsorted : closed.Pairwise fun a b => a.seq < b.seq) (hactive : ∀ held ∈ closed, held.seq < active) :
    ∀ (freed : Nat) (h : Host), (h.queue signal).closed = closed →
      Sat (commitLoop signal acked active closed freed) h (fun _ h' => Retired signal acked closed h h')
        (fun _ _ => True) := by
  induction closed with
  | nil => exact fun freed h hclosed => ⟨by simpa using hclosed, by simp, fun _ _ => rfl⟩
  | cons front rest ih =>
    intro freed h hclosed
    rw [List.pairwise_cons] at hsorted
    unfold commitLoop
    by_cases hfront : front.seq > acked
    · -- everything behind the front is newer still
      rw [if_pos (.inl hfront)]
      have hnew : ∀ held ∈ front :: rest, acked < held.seq := by
        intro held hmem
        rcases List.mem_cons.mp hmem with rfl | hmem
        · exact hfront
        · exact hfront.trans (hsorted.1 held hmem)
      refine ⟨?_, fun n => ?_, fun _ _ => rfl⟩
      · rw [List.filter_eq_self.mpr (by simpa using hnew)]
        exact hclosed
      · rw [if_neg]
        rintro ⟨hle, hmem⟩
        obtain ⟨held, hheld, rfl⟩ := List.mem_map.mp hmem
        exact absurd (hnew held hheld) (by omega)
    · have hlt := hactive front (by simp)
      rw [if_neg (by omega), sat_bind, sat_modify]
      refine (remove_sat signal front.seq _).bind ?_ (fun _ _ _ => trivial)
      rintro _ h₁ ⟨hinner, hdisk⟩
      have hrest : (h₁.queue signal).closed = rest := by
        simp [Host.queue, hinner, popFront, Host.setQueue, Inner.setSignal]
      refine (ih hsorted.2 (fun held hm => hactive held (by simp [hm])) _ h₁ hrest).mono ?_ (fun _ _ _ => trivial)
      rintro _ h' ⟨hc, hd, ho⟩
      have hdir : ∀ n, (h₁.disk.dirs signal)[n]? = if n = front.seq then none else (h.disk.dirs signal)[n]? := by
        intro n
        rw [hdisk, Disk.modifyDir_self, getElem?_erase]
        rfl
      refine ⟨?_, fun n => ?_, fun signal' hne => ?_⟩
      · rw [hc, List.filter_cons_of_neg (by simpa using hfront)]
      · rw [hd n, hdir n]
        by_cases hn : n = front.seq
        · subst hn; simp [show front.seq ≤ acked by omega]
        · simp [hn]
      · rw [ho signal' hne, hdisk, Disk.modifyDir_other _ _ hne]
        rfl

/-- **A commit that succeeds unlinks exactly the closed segments up to the number acknowledged.** -/
theorem commit_sat {h : Host} (ho : InOrder h) (signal : Signal) (acked : Nat) :
    Sat (commit signal acked) h (fun _ h' => Retired signal acked (h.queue signal).closed h h')
      (fun _ _ => True) := by
  have hsorted := ho signal
  rw [numbers_eq, List.pairwise_append] at hsorted
  obtain ⟨hclosed, -, hback⟩ := hsorted
  unfold commit
  rw [sat_bind, sat_get]
  refine (commitLoop_sat signal acked _ _ (List.pairwise_map.mp hclosed) ?_ 0 h rfl).bind ?_ (fun _ _ _ => trivial)
  · intro held hmem
    exact hback held.seq (List.mem_map_of_mem hmem) _ (by simp)
  · rintro freed h' ⟨hc, hd, hothers⟩
    exact ⟨hc, hd, hothers⟩

/-! ## The queue after an open -/

/-- The state in which the operations on a queue begin. -/
def Opening.host (o : Opening) (inner : Inner) : Host where
  disk := o.disk
  inner := inner
  faults := {}
  now := o.now
  instant := 0
  created := o.created
  appended := fun _ => []

/-- What the sender relies on in a state: the numbers of each signal increase towards the back, where the
segment being written is, and a commit that returns has unlinked exactly the closed segments up to the number
acknowledged. -/
def Dependable (h : Host) : Prop :=
  InOrder h ∧ ∀ signal acked h', (commit signal acked).exec h = (.ok (), h') →
    Retired signal acked (h.queue signal).closed h h'

theorem InOrder.dependable {h : Host} (ho : InOrder h) : Dependable h :=
  ⟨ho, fun signal acked _ hex => (commit_sat ho signal acked).of_ok hex⟩

theorem Opened.inOrder_iff {zstdLen : Bytes → Nat} {o o' : Opening} {inner : Inner}
    (h : Opened zstdLen o inner o') :
    InOrder (o'.host inner) ↔
      ∀ signal, (survivors (o.disk.dirs signal)).Pairwise fun a b => a.modified ≤ b.modified := by
  refine forall_congr' fun signal => ?_
  have hqueue : (o'.host inner).queue signal = openedQueue zstdLen o.disk.dirs signal := by
    simp [Host.queue, Opening.host, h.signals]
  rw [← sortedFiles_increasing_iff zstdLen, numbers_eq, hqueue]
  simp only [openedQueue, stampedOf_seq, List.pairwise_append]
  -- the new number is larger than every number found, whatever the order
  have hnext : ∀ a ∈ (sortedFiles zstdLen o.disk.dirs signal).map SegmentFile.seq,
      ∀ b ∈ [nextNumber (o.disk.dirs signal)], a < b := by
    intro a ha b hb
    obtain ⟨file, hfile, rfl⟩ := List.mem_map.mp ha
    rw [List.mem_singleton.mp hb]
    exact keptFiles_lt zstdLen ((sortedFiles_perm zstdLen o.disk.dirs signal).mem_iff.mp hfile)
  exact ⟨fun hall => hall.1, fun hsorted => ⟨hsorted, by simp, hnext⟩⟩

/-- **The segments of a signal are held, offered and retired in the order of their numbers exactly when the
times of the files found at open do not run against the numbers.** Then every state of every run of
operations, whatever its file-system calls come to, is dependable, and no segment of a signal is offered
after a higher one. -/
theorem dependable_iff_times (zstdLen : Bytes → Nat) (limits : QueueLimits) (fresh : SenderId) (o o' : Opening)
    (inner : Inner) (hcalls : o.calls = none) (hopen : (openQueue zstdLen fresh).exec o = (.ok inner, o')) :
    (∀ steps, Dependable ((o'.host inner).run limits steps) ∧
      ∀ signal, (offersOf signal ((o'.host inner).offers limits steps)).Pairwise (· ≤ ·)) ↔
      ∀ signal, (survivors (o.disk.dirs signal)).Pairwise fun a b => a.modified ≤ b.modified := by
  rw [← (Opened.of_exec hcalls hopen).inOrder_iff]
  constructor
  · exact fun hall => (hall []).1.1
  · intro ho steps
    exact ⟨(ho.ahead (ahead_run limits _ steps)).dependable, fun signal => offers_increase signal steps _ ho⟩

/-- A directory of two closed segments of logs, with the times given. -/
def twoSegments (first second : Nat) : Opening where
  disk :=
    { identity := some [1]
      dirs := fun
        | .logs => .ofList [(1, File.mk 9 first (frameRecord [7]) true), (2, File.mk 9 second (frameRecord [8]) true)]
        | .traces | .metrics => ∅ }
  created := fun _ => []
  now := 20
  calls := none

def tinyLimits : QueueLimits := { maxBytes := 20, maxSegmentBytes := 100, maxSegmentAge := 1 }

/-- The queue opened on two segments, and a record of metrics appended that makes it drop the oldest one:
the numbers of the logs held at first, and those offered before and after. -/
def twoSegmentRun (first second : Nat) : Option (List Nat × List Nat) :=
  match (openQueue List.length [2]).exec (twoSegments first second) with
  | (.error _, _) => none
  | (.ok inner, o') =>
    let h := o'.host inner
    some (h.numbers .logs, offersOf .logs (h.offers tinyLimits
      [{ call := .append .metrics [[1, 2]], faults := {}, now := 30, instant := 1 }]))

/-- The clock was set back between the two: the second segment is held in front of the first, is offered
before it, and once it is dropped the first one follows. -/
theorem clock_set_back_offers_backwards : twoSegmentRun 10 5 = some ([2, 1, 3], [2, 1]) := by
  decide +kernel

/-- With the times in the order of the numbers every run on the two segments is dependable. -/
theorem two_segments_dependable :
    ∃ inner o', (openQueue List.length [2]).exec (twoSegments 5 10) = (.ok inner, o') ∧
      ∀ steps, Dependable ((o'.host inner).run tinyLimits steps) := by
  obtain ⟨inner, o', hopen, -⟩ := openQueue_none List.length [2] (o := twoSegments 5 10) rfl
  refine ⟨inner, o', hopen, fun steps => ?_⟩
  have htimes : ∀ signal, (survivors ((twoSegments 5 10).disk.dirs signal)).Pairwise
      fun a b => a.modified ≤ b.modified := by
    intro signal
    cases signal <;> decide +kernel
  exact ((dependable_iff_times List.length tinyLimits [2] _ o' inner rfl hopen).mpr htimes steps).1

end Collecty
