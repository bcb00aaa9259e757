/-
The numbers segments are given while the identity file is kept.

The next number is nowhere written down: an open takes it from the files it finds. What carries the argument
is that a directory always holds a file at or above every number used (`Covered`). The operations of an open
queue never unlink the segment at the back; an open that stops between the unlink of a signal's last segment
and the creation of the next one leaves the directory uncovered, and the numbers start over.
-/
import Mathlib
import Fn0.Collecty.QueueTrack
import Fn0.Collecty.QueueOpen

namespace Collecty

open Eff

/-! ## An open queue -/

/-- Every number used is at or below the number of a file that is there. -/
def Covered (used : List Nat) (dir : Dir) : Prop := ∀ n ∈ used, ∃ m, m ∈ dir ∧ n ≤ m

/-- One signal of an open queue: the numbers used increase; the file at the back, or one above it, is there
and covers them; and a segment that is being written has the highest of them. -/
structure Numbered (queue : SignalQueue) (used : List Nat) (dir : Dir) : Prop where
  increasing : used.Pairwise (· < ·)
  closedLt : ∀ held ∈ queue.closed, held.seq < queue.back.seq
  top : ∃ m, m ∈ dir ∧ queue.back.seq ≤ m ∧ ∀ n ∈ used, n ≤ m
  active : queue.active ≠ none → ∀ n ∈ used, n ≤ queue.back.seq

def AllNumbered (h : Host) : Prop := ∀ signal, Numbered (h.queue signal) (h.created signal) (h.disk.dirs signal)

/-- The numbering is kept. -/
def Keeps (h h' : Host) : Prop := AllNumbered h → AllNumbered h'

instance : Std.Refl Keeps := ⟨fun _ h => h⟩

instance : IsTrans Host Keeps := ⟨fun _ _ _ h h' hn => h' (h hn)⟩

/-- What one signal is made of is the same. -/
def SameSignal (signal : Signal) (h h' : Host) : Prop :=
  h'.queue signal = h.queue signal ∧ h'.created signal = h.created signal ∧
    h'.disk.dirs signal = h.disk.dirs signal

/-- A change to one signal. -/
theorem AllNumbered.change {h h' : Host} (signal : Signal) (hn : AllNumbered h)
    (hothers : ∀ signal' ≠ signal, SameSignal signal' h h')
    (hself : Numbered (h'.queue signal) (h'.created signal) (h'.disk.dirs signal)) : AllNumbered h' := by
  intro signal'
  by_cases hs : signal' = signal
  · subst hs; exact hself
  · obtain ⟨hq, hc, hd⟩ := hothers signal' hs
    rw [hq, hc, hd]
    exact hn signal'

/-- Files may come, and the queue may change but for its numbers; a closed segment is not opened again. -/
theorem Numbered.mono {queue queue' : SignalQueue} {used : List Nat} {dir dir' : Dir}
    (hn : Numbered queue used dir) (hclosed : queue'.closed = queue.closed) (hback : queue'.back.seq = queue.back.seq)
    (hactive : queue.active = none → queue'.active = none) (hdir : ∀ m ∈ dir, m ∈ dir') :
    Numbered queue' used dir' := by
  obtain ⟨m, hm, hle, hused⟩ := hn.top
  refine ⟨hn.increasing, ?_, ⟨m, hdir m hm, by rwa [hback], hused⟩, fun ha => ?_⟩
  · rw [hclosed, hback]; exact hn.closedLt
  · rw [hback]; exact hn.active fun hnone => ha (hactive hnone)

/-- A write leaves the numbering alone: it goes to a segment that is open. -/
theorem keeps_emit {signal : Signal} {stream : Stream} {h : Host} (taken : Bytes) (emitted : Nat)
    (ha : (h.queue signal).active = some stream) : Keeps h ((emit signal stream taken emitted).exec h).2 := by
  intro hn
  rw [emit, exec_modify]
  refine hn.change signal (fun signal' hne => ⟨?_, rfl, ?_⟩) ?_
  · exact Host.queue_setQueue_ne _ _ _ hne
  · exact Host.dirs_setFile_ne _ _ _ _ hne
  · simp only [Host.queue_setFile, Host.queue_setQueue_self, Host.dirs_setFile_self, Host.disk_setQueue]
    exact (hn signal).mono rfl rfl (by simp [ha]) fun m => mem_insert_of_mem

/-- What is known of a signal whose segment at the back has just been closed. -/
structure BackClosed (signal : Signal) (seq : Nat) (h : Host) : Prop where
  numbered : AllNumbered h
  back : (h.queue signal).back.seq = seq
  inactive : (h.queue signal).active = none
  used : ∀ n ∈ h.created signal, n ≤ seq

theorem finish_sat (signal : Signal) {h : Host} (hn : AllNumbered h) :
    Sat (finish signal) h (fun _ h' => BackClosed signal (h.queue signal).back.seq h')
      (fun _ h' => AllNumbered h') := by
  unfold finish
  rw [sat_bind, sat_get]
  split
  · exact hn
  next stream ha =>
    have hclosed : AllNumbered (h.setQueue signal { h.queue signal with active := none }) := by
      refine hn.change signal (fun signal' hne => ⟨Host.queue_setQueue_ne _ _ _ hne, rfl, rfl⟩) ?_
      rw [Host.queue_setQueue_self]
      exact (hn signal).mono rfl rfl (fun _ => rfl) fun m hm => hm
    rw [sat_bind, sat_set]
    split
    · rw [sat_bind, sat_modify, sat_pure]
      refine ⟨?_, by simp, by simp, fun n hmem => (hn signal).active (by simp [ha]) n hmem⟩
      refine AllNumbered.change signal hclosed (fun signal' hne => ⟨rfl, rfl, ?_⟩) ?_
      · exact Host.dirs_setFile_ne _ _ _ _ hne
      · simp only [Host.queue_setFile, Host.queue_setFaults, Host.queue_setQueue_self, Host.dirs_setFile_self,
          Host.disk_setFaults, Host.disk_setQueue]
        exact (hn signal).mono rfl rfl (fun _ => rfl) fun m => mem_insert_of_mem
    · exact hclosed

theorem closeBack_sat (signal : Signal) {h : Host} (hn : AllNumbered h) :
    Sat (closeBack signal) h (fun _ h' => BackClosed signal (h.queue signal).back.seq h')
      (fun _ h' => AllNumbered h') := by
  unfold closeBack
  rw [sat_bind, sat_modify]
  have hstamp : AllNumbered { h with inner := { h.inner with stamped := h.inner.stamped + 1 } } := hn
  refine (finish_sat signal hstamp).bind ?_ (fun _ _ he => he)
  rintro bytes h₁ ⟨hn₁, hback, hinactive, hused⟩
  have hsame : (h₁.queue signal).back.seq = (h.queue signal).back.seq := hback
  rw [sat_bind, sat_get, sat_bind, sat_set, sat_pure]
  refine ⟨?_, by simpa [sealBack] using hsame, by simpa [sealBack] using hinactive, hused⟩
  refine hn₁.change signal (fun signal' hne => ⟨Host.queue_setQueue_ne _ _ _ hne, rfl, rfl⟩) ?_
  rw [sealBack, Host.queue_modifyStats, Host.queue_setQueue_self]
  exact (hn₁ signal).mono rfl rfl (fun hnone => hnone) fun m hm => hm

/-- **A roll gives the number behind the one at the back**, which is higher than every number used. -/
theorem keeps_roll (signal : Signal) : Tracks Keeps (roll signal) := by
  refine tracks_get_bind fun h => ?_
  split
  · exact Std.Refl.refl h
  · intro hn
    refine tracks_outcome (P := AllNumbered) ?_
    refine (closeBack_sat signal hn).bind ?_ (fun _ _ he => he)
    rintro grew h₁ ⟨hn₁, hback, hinactive, hused⟩
    generalize (h.queue signal).back.seq = seq at hback hused
    -- the file is made: its number is above the others and it covers them
    have hincreasing : (h₁.created signal ++ [seq + 1]).Pairwise (· < ·) := by
      refine List.pairwise_append.mpr ⟨(hn₁ signal).increasing, by simp, fun n hmem x hx => ?_⟩
      have := hused n hmem
      simp only [List.mem_singleton] at hx
      omega
    have hle : ∀ n ∈ h₁.created signal ++ [seq + 1], n ≤ seq + 1 := by
      intro n hmem
      rcases List.mem_append.mp hmem with hmem | hmem
      · exact (hused n hmem).trans (Nat.le_succ seq)
      · exact (List.mem_singleton.mp hmem).le
    have hmade : ∀ faults, AllNumbered (Host.makeFile signal (seq + 1) (h₁.setFaults faults)) := by
      intro faults
      refine hn₁.change signal (fun signal' hne => ⟨rfl, ?_, ?_⟩) ?_
      · exact Host.created_makeFile_ne _ _ _ hne
      · exact Host.dirs_makeFile_ne _ _ _ hne
      · simp only [Host.queue_makeFile, Host.queue_setFaults, Host.created_makeFile_self, Host.created_setFaults,
          Host.dirs_makeFile_self, Host.disk_setFaults]
        exact ⟨hincreasing, (hn₁ signal).closedLt, ⟨seq + 1, mem_insert_self, by omega, hle⟩,
          fun ha => absurd hinactive ha⟩
    unfold reusing
    rw [sat_bind, sat_bind, sat_get, sat_bind, sat_set]
    split
    · rw [sat_bind, sat_modify, sat_modify, sat_modify]
      refine AllNumbered.change signal (hmade _) (fun signal' hne => ⟨?_, rfl, rfl⟩) ?_
      · simp [pushBack, startSegment, Host.queue_setQueue_ne _ _ _ hne]
      · simp only [pushBack, startSegment, Host.queue_modifyStats, Host.queue_setQueue_self, Host.disk_modifyStats,
          Host.disk_setQueue, Host.created_modifyStats, Host.created_setQueue, Host.created_makeFile_self,
          Host.dirs_makeFile_self, Host.created_setFaults, Host.disk_setFaults, Host.queue_makeFile,
          Host.queue_setFaults]
        refine ⟨hincreasing, ?_, ⟨seq + 1, mem_insert_self, le_refl _, hle⟩, fun _ => hle⟩
        intro held hmem
        rcases List.mem_append.mp hmem with hmem | hmem
        · have := (hn₁ signal).closedLt held hmem
          simp only at this ⊢
          omega
        · rw [List.mem_singleton.mp hmem]
          simp only
          omega
    · exact hmade _
    · exact hn₁

/-- The closed segment taken from the front can be unlinked: it is not the one that covers the numbers. -/
theorem popFront_remove_sat {signal : Signal} {h : Host} {held : Held} {rest : List Held} (hn : AllNumbered h)
    (hclosed : (h.queue signal).closed = held :: rest) :
    Sat (do modify (popFront signal rest); remove signal held.seq : Op Unit) h
      (fun _ h' => AllNumbered h') (fun _ h' => AllNumbered h') := by
  have hlt : held.seq < (h.queue signal).back.seq := (hn signal).closedLt held (by simp [hclosed])
  have hpop : AllNumbered (popFront signal rest h) := by
    refine hn.change signal (fun signal' hne => ⟨Host.queue_setQueue_ne _ _ _ hne, rfl, rfl⟩) ?_
    rw [popFront, Host.queue_setQueue_self]
    exact ⟨(hn signal).increasing, fun x hx => (hn signal).closedLt x (by simp [hclosed, hx]), (hn signal).top,
      (hn signal).active⟩
  unfold remove
  rw [sat_bind, sat_modify, sat_bind, sat_get, sat_bind, sat_set]
  split
  · split
    · rw [sat_modify]
      refine AllNumbered.change signal hpop (fun signal' hne => ⟨rfl, rfl, ?_⟩) ?_
      · exact Host.dirs_removeFile_ne _ _ _ hne
      · simp only [Host.queue_removeFile, Host.queue_setFaults, Host.created_removeFile, Host.created_setFaults,
          Host.dirs_removeFile_self, Host.disk_setFaults]
        obtain ⟨m, hm, hle, hused⟩ := (hpop signal).top
        have hback : ((popFront signal rest h).queue signal).back.seq = (h.queue signal).back.seq := by
          simp [popFront]
        exact ⟨(hpop signal).increasing, (hpop signal).closedLt,
          ⟨m, mem_erase.mpr ⟨by omega, hm⟩, hle, hused⟩, (hpop signal).active⟩
    · exact hpop
  · exact hpop

theorem keeps_countRecord (signal : Signal) (plainLen : Nat) (payload : Bytes) (h : Host) :
    Keeps h (countRecord signal plainLen payload h) := by
  intro hn
  refine hn.change signal (fun signal' hne => ⟨?_, rfl, rfl⟩) ?_
  · exact Host.queue_setQueue_ne _ _ _ hne
  · have hqueue : ((countRecord signal plainLen payload h).queue signal) =
        { h.queue signal with
          back := { (h.queue signal).back with bytes := (h.queue signal).written }
          activeSince := some ((h.queue signal).activeSince.getD h.instant) } :=
      Host.queue_setQueue_self h signal _
    rw [hqueue]
    exact (hn signal).mono rfl rfl (fun hnone => hnone) fun m hm => hm

theorem tracked_keeps : Tracked Keeps where
  faults _ _ := fun hn => hn
  stats _ _ := fun hn => hn
  clock _ _ _ _ := fun hn => hn
  emit taken emitted ha := keeps_emit taken emitted ha
  roll := keeps_roll
  take hclosed := fun hn => tracks_outcome (P := AllNumbered) (popFront_remove_sat hn hclosed)

/-- **Every operation keeps the numbering**, whatever its calls come to. -/
theorem keeps_step (limits : QueueLimits) (h : Host) (step : Step) : Keeps h (h.step limits step).2 :=
  tracked_keeps.step keeps_countRecord limits h step

/-! ## Opening

An open makes its calls in a fixed order: the identity file when there is none, then for each signal in turn
the reseal of its last segment, then for each the creation of the next one. -/

/-- The last file of a directory has nothing readable in it. -/
def DropsLast (dir : Dir) : Prop := ∃ entry, dir.toList.getLast? = some entry ∧ entry.2.reseal = .dropped

/-- The calls that resealing the last file takes. -/
def resealCalls (dir : Dir) : Nat :=
  match dir.toList.getLast? with
  | none => 0
  | some (_, file) => if file.reseal = .kept then 0 else 1

def identityCalls (disk : Disk) : Nat := if disk.identity = none then 1 else 0

/-- The calls an open makes before it reseals a signal's last file. -/
def resealAt (disk : Disk) : Signal → Nat
  | .logs => identityCalls disk
  | .traces => identityCalls disk + resealCalls (disk.dirs .logs)
  | .metrics => identityCalls disk + resealCalls (disk.dirs .logs) + resealCalls (disk.dirs .traces)

/-- The calls an open makes before it creates a signal's next segment. -/
def createAt (disk : Disk) (signal : Signal) : Nat :=
  identityCalls disk + resealCalls (disk.dirs .logs) + resealCalls (disk.dirs .traces)
    + resealCalls (disk.dirs .metrics) + signal.index

/-- An open that is stopped after `calls` calls has not unlinked a signal's last segment without creating the
next one. -/
def SparesNumbers (disk : Disk) (calls : Option Nat) : Prop :=
  ∀ stop, calls = some stop → ∀ signal, DropsLast (disk.dirs signal) →
    stop ≤ resealAt disk signal ∨ createAt disk signal < stop

/-- How far an open has come from the directories `dirs`: which signals are resealed, for which the next
segment is made, and how many calls it took. Only between the two is a directory uncovered, and only when
its last file was dropped. -/
structure Progress (dirs : Signal → Dir) (budget : Option Nat) (resealed made : Signal → Bool) (count : Nat)
    (o : Opening) : Prop where
  calls : o.calls = budget.map (· - count)
  within : ∀ stop, budget = some stop → count ≤ stop
  untouched : ∀ signal, resealed signal = false → o.disk.dirs signal = dirs signal
  increasing : ∀ signal, (o.created signal).Pairwise (· < ·)
  below : ∀ signal, made signal = false → ∀ n ∈ o.created signal, n < nextNumber (dirs signal)
  covered : ∀ signal, ¬ (resealed signal = true ∧ made signal = false ∧ DropsLast (dirs signal)) →
    Covered (o.created signal) (o.disk.dirs signal)
  top : ∀ signal, made signal = true → nextNumber (dirs signal) ∈ o.disk.dirs signal ∧
    ∀ n ∈ o.created signal, n ≤ nextNumber (dirs signal)

theorem call_sat {budget : Option Nat} {count : Nat} {o : Opening} {f : Opening → Opening}
    (hcalls : o.calls = budget.map (· - count)) (hwithin : ∀ stop, budget = some stop → count ≤ stop)
    (hf : (f o).calls = o.calls) :
    Sat (call f) o
      (fun _ o' => o'.disk = (f o).disk ∧ o'.created = (f o).created ∧ o'.calls = budget.map (· - (count + 1)) ∧
        ∀ stop, budget = some stop → count + 1 ≤ stop)
      (fun _ o' => o' = o ∧ budget = some count) := by
  unfold call
  rw [sat_bind, sat_get]
  cases budget with
  | none =>
    have hnone : o.calls = none := hcalls
    rw [hnone]
    exact ⟨rfl, rfl, hf.trans hnone, by simp⟩
  | some stop =>
    have hle := hwithin stop rfl
    have hsome : o.calls = some (stop - count) := hcalls
    rw [hsome]
    rcases hleft : stop - count with _ | left
    · exact ⟨rfl, by congr 1; omega⟩
    · refine ⟨rfl, rfl, ?_, fun stop' heq => ?_⟩
      · change some left = some (stop - (count + 1))
        congr 1; omega
      · cases heq; omega

theorem mem_iff_mem_list {dir : Dir} {n : Nat} : n ∈ dir ↔ ∃ file, (n, file) ∈ dir.toList := by
  simp only [OrdMap.mem_toList, Std.ExtTreeMap.mem_iff_isSome_getElem?, Option.isSome_iff_exists]

theorem lt_nextNumber_of_mem {dir : Dir} {n : Nat} (h : n ∈ dir) : n < nextNumber dir := by
  obtain ⟨file, hmem⟩ := mem_iff_mem_list.mp h
  have hlist : (⟨n, file.bytes, file.modified⟩ : SegmentFile) ∈ list dir := List.mem_map.mpr ⟨(n, file), hmem, rfl⟩
  exact lt_nextNumber hlist

theorem Covered.below {used : List Nat} {dir : Dir} (h : Covered used dir) : ∀ n ∈ used, n < nextNumber dir := by
  intro n hn
  obtain ⟨m, hm, hle⟩ := h n hn
  exact hle.trans_lt (lt_nextNumber_of_mem hm)

section Stages

variable {zstdLen : Bytes → Nat} {dirs : Signal → Dir} {budget : Option Nat} {resealed made : Signal → Bool}
  {count : Nat} {o : Opening}

/-- A signal's last file has been resealed: what was there is still there, unless the file was dropped. -/
theorem Progress.settle {o' : Opening} {count' : Nat} (hp : Progress dirs budget resealed made count o)
    (signal : Signal) (hm : made signal = false) (hcalls : o'.calls = budget.map (· - count'))
    (hwithin : ∀ stop, budget = some stop → count' ≤ stop) (hcreated : o'.created = o.created)
    (hothers : ∀ signal' ≠ signal, o'.disk.dirs signal' = o.disk.dirs signal')
    (hself : ¬ DropsLast (dirs signal) →
      (∀ m ∈ o.disk.dirs signal, m ∈ o'.disk.dirs signal) ∧ Covered (o.created signal) (o.disk.dirs signal)) :
    Progress dirs budget (Function.update resealed signal true) made count' o' := by
  refine ⟨hcalls, hwithin, ?_, ?_, ?_, ?_, ?_⟩
  · intro signal' hr
    have hne : signal' ≠ signal := by rintro rfl; simp at hr
    rw [hothers signal' hne]
    exact hp.untouched signal' (by simpa [hne] using hr)
  · rw [hcreated]; exact hp.increasing
  · rw [hcreated]; exact hp.below
  · intro signal' hc
    rw [hcreated]
    by_cases hs : signal' = signal
    · subst hs
      obtain ⟨hmem, hcov⟩ := hself fun hd => hc ⟨by simp, hm, hd⟩
      intro n hn
      obtain ⟨m, hin, hle⟩ := hcov n hn
      exact ⟨m, hmem m hin, hle⟩
    · rw [hothers signal' hs]
      exact hp.covered signal' (by simpa [hs] using hc)
  · intro signal' ht
    have hne : signal' ≠ signal := by rintro rfl; simp [hm] at ht
    rw [hcreated, hothers signal' hne]
    exact hp.top signal' ht

/-- The reseal of a signal's last file. -/
theorem Progress.recover (hp : Progress dirs budget resealed made count o) (signal : Signal)
    (hr : resealed signal = false) (hm : made signal = false) :
    Sat (recoverSignal zstdLen signal) o
      (fun found o' => found.1 = nextNumber (dirs signal) ∧ (∀ file ∈ found.2, file.seq < nextNumber (dirs signal)) ∧
        Progress dirs budget (Function.update resealed signal true) made (count + resealCalls (dirs signal)) o')
      (fun _ o' => Progress dirs budget resealed made count o' ∧ budget = some count) := by
  have hdir : o.disk.dirs signal = dirs signal := hp.untouched signal hr
  have hcovered : Covered (o.created signal) (o.disk.dirs signal) := hp.covered signal (by simp [hr])
  have hfiles : ∀ file ∈ list (dirs signal), file.seq < nextNumber (dirs signal) := fun file => lt_nextNumber
  unfold recoverSignal
  rw [sat_bind, sat_get, hdir]
  rcases hlast : (dirs signal).toList.getLast? with _ | ⟨seq, file⟩
  · have hzero : resealCalls (dirs signal) = 0 := by unfold resealCalls; rw [hlast]
    rw [hzero]
    exact ⟨by unfold nextNumber; rw [hlast], hfiles,
      hp.settle signal hm hp.calls hp.within rfl (fun _ _ => rfl) fun _ => ⟨fun _ h => h, hcovered⟩⟩
  · have hnext : nextNumber (dirs signal) = seq + 1 := by unfold nextNumber; rw [hlast]
    have hkept : ∀ bytes, ∀ x ∈ (list (dirs signal)).dropLast ++ [⟨seq, bytes, file.modified⟩],
        x.seq < nextNumber (dirs signal) := by
      intro bytes x hx
      rcases List.mem_append.mp hx with hx | hx
      · exact hfiles x (List.mem_of_mem_dropLast hx)
      · rw [List.mem_singleton.mp hx, hnext]; exact Nat.lt_succ_self seq
    dsimp only
    rw [reseal, sat_bind]
    rcases hreseal : file.reseal with _ | plain | _ <;> dsimp only
    · have hzero : resealCalls (dirs signal) = 0 := by unfold resealCalls; rw [hlast]; simp [hreseal]
      rw [hzero]
      exact ⟨hnext.symm, hkept _,
        hp.settle signal hm hp.calls hp.within rfl (fun _ _ => rfl) fun _ => ⟨fun _ h => h, hcovered⟩⟩
    · have hone : resealCalls (dirs signal) = 1 := by unfold resealCalls; rw [hlast]; simp [hreseal]
      rw [hone, sat_bind]
      refine (call_sat hp.calls hp.within rfl).mono ?_ (fun _ _ he => ⟨he.1 ▸ hp, he.2⟩)
      rintro _ o' ⟨hdisk, hcreated, hcalls, hwithin⟩
      refine ⟨hnext.symm, hkept _, hp.settle signal hm hcalls hwithin hcreated ?_ fun _ => ⟨?_, hcovered⟩⟩
      · intro signal' hne
        rw [hdisk, Disk.modifyDir_other _ _ hne]
      · intro m hmem
        rw [hdisk, Disk.modifyDir_self]; exact mem_insert_of_mem hmem
    · have hone : resealCalls (dirs signal) = 1 := by unfold resealCalls; rw [hlast]; simp [hreseal]
      rw [hone, sat_bind]
      refine (call_sat hp.calls hp.within rfl).mono ?_ (fun _ _ he => ⟨he.1 ▸ hp, he.2⟩)
      rintro _ o' ⟨hdisk, hcreated, hcalls, hwithin⟩
      refine ⟨hnext.symm, fun x hx => hfiles x (List.mem_of_mem_dropLast hx),
        hp.settle signal hm hcalls hwithin hcreated ?_ fun hd => absurd ⟨_, hlast, hreseal⟩ hd⟩
      intro signal' hne
      rw [hdisk, Disk.modifyDir_other _ _ hne]

/-- The creation of a signal's next segment. -/
theorem Progress.create (hp : Progress dirs budget resealed made count o) (signal : Signal)
    (hr : resealed signal = true) (hm : made signal = false) :
    Sat (openActive signal (nextNumber (dirs signal))) o
      (fun _ o' => Progress dirs budget resealed (Function.update made signal true) (count + 1) o')
      (fun _ o' => Progress dirs budget resealed made count o' ∧ budget = some count) := by
  unfold openActive
  refine (call_sat hp.calls hp.within rfl).mono ?_ (fun _ _ he => ⟨he.1 ▸ hp, he.2⟩)
  rintro _ o' ⟨hdisk, hcreated, hcalls, hwithin⟩
  have hself : o'.created signal = o.created signal ++ [nextNumber (dirs signal)] := by simp [hcreated]
  have hother : ∀ signal' ≠ signal, o'.created signal' = o.created signal' := by
    intro signal' hne
    simp [hcreated, hne]
  have hdir : o'.disk.dirs signal = (o.disk.dirs signal).insert (nextNumber (dirs signal)) ⟨0, o.now, [], false⟩ := by
    rw [hdisk, Disk.modifyDir_self]
  have hdirs : ∀ signal' ≠ signal, o'.disk.dirs signal' = o.disk.dirs signal' := by
    intro signal' hne
    rw [hdisk, Disk.modifyDir_other _ _ hne]
  have hbelow := hp.below signal hm
  have hle : ∀ n ∈ o'.created signal, n ≤ nextNumber (dirs signal) := by
    intro n hn
    rw [hself] at hn
    rcases List.mem_append.mp hn with hn | hn
    · exact (hbelow n hn).le
    · exact (List.mem_singleton.mp hn).le
  refine ⟨hcalls, hwithin, ?_, ?_, ?_, ?_, ?_⟩
  · intro signal' hr'
    have hne : signal' ≠ signal := by rintro rfl; simp [hr] at hr'
    rw [hdirs signal' hne]; exact hp.untouched signal' hr'
  · intro signal'
    by_cases hs : signal' = signal
    · subst hs
      rw [hself]
      refine List.pairwise_append.mpr ⟨hp.increasing _, by simp, fun n hn x hx => ?_⟩
      rw [List.mem_singleton.mp hx]; exact hbelow n hn
    · rw [hother signal' hs]; exact hp.increasing signal'
  · intro signal' hm'
    have hne : signal' ≠ signal := by rintro rfl; simp at hm'
    rw [hother signal' hne]; exact hp.below signal' (by simpa [hne] using hm')
  · intro signal' hc
    by_cases hs : signal' = signal
    · subst hs
      rw [hdir]
      exact fun n hn => ⟨_, mem_insert_self, hle n hn⟩
    · rw [hother signal' hs, hdirs signal' hs]
      exact hp.covered signal' (by simpa [hs] using hc)
  · intro signal' ht
    by_cases hs : signal' = signal
    · subst hs
      exact ⟨by rw [hdir]; exact mem_insert_self, hle⟩
    · rw [hother signal' hs, hdirs signal' hs]
      exact hp.top signal' (by simpa [hs] using ht)

end Stages

/-- The directories cover the numbers used, which increase: what an open needs to find. -/
def Recoverable (created : Signal → List Nat) (dirs : Signal → Dir) : Prop :=
  ∀ signal, (created signal).Pairwise (· < ·) ∧ Covered (created signal) (dirs signal)

theorem DropsLast.calls {dir : Dir} (h : DropsLast dir) : resealCalls dir = 1 := by
  obtain ⟨entry, hlast, hdropped⟩ := h
  unfold resealCalls
  rw [hlast]
  simp [hdropped]

theorem numbers_sorted (dir : Dir) : (Dir.numbers dir).Pairwise (· < ·) :=
  List.pairwise_map.mpr (OrdMap.toList_sorted dir)

theorem covered_numbers (dir : Dir) : Covered (Dir.numbers dir) dir := by
  intro n hn
  obtain ⟨⟨seq, file⟩, hmem, rfl⟩ := List.mem_map.mp hn
  exact ⟨seq, mem_iff_mem_list.mpr ⟨file, hmem⟩, le_refl _⟩

/-- The start of an open, before it touches a segment. -/
theorem loadIdentity_sat (fresh : SenderId) {o : Opening} (hr : Recoverable o.created o.disk.dirs) :
    Sat (loadIdentity fresh) o
      (fun _ o' => Progress o.disk.dirs o.calls (fun _ => false) (fun _ => false) (identityCalls o.disk) o')
      (fun _ o' => Recoverable o'.created o'.disk.dirs) := by
  unfold loadIdentity
  rw [sat_bind, sat_get]
  split
  next id hid =>
    have hzero : identityCalls o.disk = 0 := by simp [identityCalls, hid]
    rw [hzero]
    exact ⟨by simp, by simp, fun _ _ => rfl, fun signal => (hr signal).1, fun signal _ => (hr signal).2.below,
      fun signal _ => (hr signal).2, by simp⟩
  next hid =>
    have hone : identityCalls o.disk = 1 := by simp [identityCalls, hid]
    rw [hone]
    have hcalls : o.calls = o.calls.map (· - 0) := by simp
    refine (call_sat hcalls (by simp) rfl).mono ?_ (fun _ _ he => he.1 ▸ hr)
    rintro _ o' ⟨hdisk, hcreated, hcalls, hwithin⟩
    refine ⟨hcalls, hwithin, fun _ _ => by rw [hdisk], ?_, ?_, ?_, by simp⟩
    · intro signal; rw [hcreated]; exact numbers_sorted _
    · intro signal _; rw [hcreated]; exact (covered_numbers _).below
    · intro signal _; rw [hcreated, hdisk]; exact covered_numbers _

theorem stampedOf_mem {signal : Signal} {sorted : List (Signal × SegmentFile)} {held : Held}
    (h : held ∈ stampedOf signal sorted) : ∃ file, (signal, file) ∈ sorted ∧ held.seq = file.seq := by
  have hmem : held.seq ∈ (stampedOf signal sorted).map Held.seq := List.mem_map_of_mem h
  rw [stampedOf_seq] at hmem
  obtain ⟨file, hfile, heq⟩ := List.mem_map.mp hmem
  obtain ⟨⟨owner, file'⟩, hin, rfl⟩ := List.mem_map.mp hfile
  obtain ⟨hsorted, howner⟩ := List.mem_filter.mp hin
  rw [decide_eq_true_eq] at howner
  cases howner
  exact ⟨file', hsorted, heq.symm⟩

/-- An open that stopped where it spares the numbers: by the count of its calls no signal is between the
unlink of its last file and the creation of the next. -/
theorem Progress.stopped {disk : Disk} {budget : Option Nat} {resealed made : Signal → Bool} {count : Nat}
    {o : Opening} (hspares : SparesNumbers disk budget)
    (hbetween : ∀ signal, resealed signal = true → made signal = false → resealCalls (disk.dirs signal) = 1 →
      resealAt disk signal < count ∧ count ≤ createAt disk signal)
    (hp : Progress disk.dirs budget resealed made count o ∧ budget = some count) :
    Recoverable o.created o.disk.dirs := by
  obtain ⟨hp, hstop⟩ := hp
  refine fun signal => ⟨hp.increasing signal, hp.covered signal fun ⟨hres, hmade, hdrop⟩ => ?_⟩
  obtain ⟨hlow, hhigh⟩ := hbetween signal hres hmade hdrop.calls
  rcases hspares count hstop signal hdrop with h | h <;> omega

/-- **An open leaves the numbers in order**: run to its end it gives each signal a number above all those
used; stopped where it spares them, it leaves what the next open needs. -/
theorem openQueue_sat (zstdLen : Bytes → Nat) (fresh : SenderId) {o : Opening}
    (hr : Recoverable o.created o.disk.dirs) (hspares : SparesNumbers o.disk o.calls) :
    Sat (openQueue zstdLen fresh) o
      (fun inner o' => ∀ signal, Numbered (inner.signals signal) (o'.created signal) (o'.disk.dirs signal))
      (fun _ o' => Recoverable o'.created o'.disk.dirs) := by
  unfold openQueue
  refine (loadIdentity_sat fresh hr).bind (fun _ o₁ hp => ?_) (fun _ _ he => he)
  refine (hp.recover .logs rfl rfl).bind ?_ (fun _ _ => Progress.stopped hspares ?_)
  rotate_left
  · intro signal; cases signal <;> simp
  rintro logs o₂ ⟨hlogs, hlogsFiles, hp⟩
  refine (hp.recover .traces rfl rfl).bind ?_ (fun _ _ => Progress.stopped hspares ?_)
  rotate_left
  · intro signal; cases signal <;> simp [resealAt, createAt, Signal.index]; omega
  rintro traces o₃ ⟨htraces, htracesFiles, hp⟩
  refine (hp.recover .metrics rfl rfl).bind ?_ (fun _ _ => Progress.stopped hspares ?_)
  rotate_left
  · intro signal; cases signal <;> simp [resealAt, createAt, Signal.index] <;> omega
  rintro metrics o₄ ⟨hmetrics, hmetricsFiles, hp⟩
  dsimp only
  rw [hlogs, htraces, hmetrics]
  refine (hp.create .logs rfl rfl).bind ?_ (fun _ _ => Progress.stopped hspares ?_)
  rotate_left
  · intro signal; cases signal <;> simp [resealAt, createAt, Signal.index] <;> omega
  intro _ o₅ hp
  refine (hp.create .traces rfl rfl).bind ?_ (fun _ _ => Progress.stopped hspares ?_)
  rotate_left
  · intro signal; cases signal <;> simp [resealAt, createAt, Signal.index]; omega
  intro _ o₆ hp
  refine (hp.create .metrics rfl rfl).bind ?_ (fun _ _ => Progress.stopped hspares ?_)
  rotate_left
  · intro signal; cases signal <;> simp [resealAt, createAt, Signal.index]; omega
  intro _ o₇ hp
  rw [sat_pure]
  have hnumbered : ∀ (signal : Signal) (queue : SignalQueue), queue.back.seq = nextNumber (o.disk.dirs signal) →
      (∀ held ∈ queue.closed, held.seq < nextNumber (o.disk.dirs signal)) →
      Numbered queue (o₇.created signal) (o₇.disk.dirs signal) := by
    intro signal queue hback hclosed
    obtain ⟨hmem, hle⟩ := hp.top signal (by cases signal <;> rfl)
    exact ⟨hp.increasing signal, by rw [hback]; exact hclosed, ⟨_, hmem, hback.le, hle⟩,
      fun _ => by rw [hback]; exact hle⟩
  have hclosed : ∀ signal, ∀ held ∈ stampedOf signal (sortRecovered (logs.2.map (Prod.mk .logs)
      ++ traces.2.map (Prod.mk .traces) ++ metrics.2.map (Prod.mk .metrics))),
      held.seq < nextNumber (o.disk.dirs signal) := by
    intro signal held hheld
    obtain ⟨file, hfile, heq⟩ := stampedOf_mem hheld
    rw [heq]
    have hin := (List.mem_insertionSort _).mp hfile
    simp only [List.mem_append, List.mem_map, Prod.mk.injEq] at hin
    rcases hin with (⟨file', hin, rfl, rfl⟩ | ⟨file', hin, rfl, rfl⟩) | ⟨file', hin, rfl, rfl⟩
    · exact hlogsFiles _ hin
    · exact htracesFiles _ hin
    · exact hmetricsFiles _ hin
  intro signal
  cases signal <;> exact hnumbered _ _ rfl (hclosed _)

/-! ## The collector from its first start on -/

/-- A machine: its disk, the numbers used under the identity, and the queue of the process that runs. -/
structure System where
  disk : Disk
  created : Signal → List Nat
  process : Option Inner

/-- What can happen. A start opens the queue and may be stopped after some calls; a process runs operations
or ends where it stands, and what is then readable in the files at the back is anything. -/
inductive Event where
  | start (fresh : SenderId) (now : Nat) (calls : Option Nat)
  | operate (step : Step)
  | crash (left : Signal → File)
  | loseIdentity

/-- The file at each signal's back as a crash leaves it. -/
def leave (inner : Inner) (left : Signal → File) (disk : Disk) : Disk :=
  { disk with dirs := fun signal =>
      let seq := (inner.signals signal).back.seq
      if (disk.dirs signal).contains seq then (disk.dirs signal).insert seq (left signal) else disk.dirs signal }

/-- The state in which the process runs its next operation. -/
def System.host (sys : System) (inner : Inner) : Host where
  disk := sys.disk
  inner := inner
  faults := {}
  now := 0
  instant := 0
  created := sys.created
  appended := fun _ => []

def System.next (zstdLen : Bytes → Nat) (limits : QueueLimits) (sys : System) : Event → System
  | .start fresh now calls =>
    match sys.process with
    | some _ => sys
    | none =>
      match (openQueue zstdLen fresh).exec { disk := sys.disk, created := sys.created, now, calls } with
      | (.ok inner, o) => { disk := o.disk, created := o.created, process := some inner }
      | (.error _, o) => { disk := o.disk, created := o.created, process := none }
  | .operate step =>
    match sys.process with
    | none => sys
    | some inner =>
      let h := ((sys.host inner).step limits step).2
      { disk := h.disk, created := h.created, process := some h.inner }
  | .crash left =>
    match sys.process with
    | none => sys
    | some inner => { sys with disk := leave inner left sys.disk, process := none }
  | .loseIdentity => { sys with disk := { sys.disk with identity := none } }

def System.run (zstdLen : Bytes → Nat) (limits : QueueLimits) (sys : System) : List Event → System
  | [] => sys
  | event :: events => System.run zstdLen limits (sys.next zstdLen limits event) events

/-- A start that is stopped spares the numbers. -/
def Event.Spares (sys : System) : Event → Prop
  | .start _ _ calls => sys.process = none → SparesNumbers sys.disk calls
  | .operate _ | .crash _ | .loseIdentity => True

def AllSpare (zstdLen : Bytes → Nat) (limits : QueueLimits) (sys : System) : List Event → Prop
  | [] => True
  | event :: events => event.Spares sys ∧ AllSpare zstdLen limits (sys.next zstdLen limits event) events

/-- No number is used twice, and none after a higher one. -/
def System.NumbersIncrease (sys : System) : Prop := ∀ signal, (sys.created signal).Pairwise (· < ·)

/-- What holds between the events. -/
def System.Sound (sys : System) : Prop :=
  match sys.process with
  | some inner => ∀ signal, Numbered (inner.signals signal) (sys.created signal) (sys.disk.dirs signal)
  | none => Recoverable sys.created sys.disk.dirs

theorem System.Sound.numbersIncrease {sys : System} (h : sys.Sound) : sys.NumbersIncrease := by
  intro signal
  unfold System.Sound at h
  split at h
  · exact (h signal).increasing
  · exact (h signal).1

theorem Numbered.covered {queue : SignalQueue} {used : List Nat} {dir : Dir} (h : Numbered queue used dir) :
    Covered used dir := by
  obtain ⟨m, hm, -, hused⟩ := h.top
  exact fun n hn => ⟨m, hm, hused n hn⟩

/-- **One event keeps the numbers in order**, if it spares them. -/
theorem System.Sound.next {zstdLen : Bytes → Nat} {limits : QueueLimits} {sys : System} {event : Event}
    (h : sys.Sound) (hspares : event.Spares sys) : (sys.next zstdLen limits event).Sound := by
  cases event with
  | start fresh now calls =>
    unfold System.next
    rcases hp : sys.process with _ | inner
    · simp only [System.Sound, hp] at h
      have hsat := openQueue_sat zstdLen fresh
        (o := { disk := sys.disk, created := sys.created, now, calls }) h (hspares hp)
      dsimp only
      rcases hex : (openQueue zstdLen fresh).exec { disk := sys.disk, created := sys.created, now, calls } with
        ⟨e | inner, o⟩
      · exact hsat.of_error hex
      · exact hsat.of_ok hex
    · exact h
  | operate step =>
    unfold System.next
    rcases hp : sys.process with _ | inner
    · exact h
    · simp only [System.Sound, hp] at h
      exact keeps_step limits (sys.host inner) step h
  | crash left =>
    unfold System.next
    rcases hp : sys.process with _ | inner
    · exact h
    · simp only [System.Sound, hp] at h
      intro signal
      refine ⟨(h signal).increasing, fun n hn => ?_⟩
      obtain ⟨m, hm, hle⟩ := (h signal).covered n hn
      refine ⟨m, ?_, hle⟩
      simp only [leave]
      split
      · exact mem_insert_of_mem hm
      · exact hm
  | loseIdentity =>
    unfold System.next System.Sound at *
    exact h

/-- **Segment numbers never go backwards and never repeat** in a run of starts, operations and crashes in
which every open that is stopped spares the numbers. The run begins before the identity was made, on any
directories. -/
theorem numbers_increase_of_spares (zstdLen : Bytes → Nat) (limits : QueueLimits) (sys : System)
    (hstart : sys.process = none) (hnone : sys.created = fun _ => []) (events : List Event)
    (hspares : AllSpare zstdLen limits sys events) : (sys.run zstdLen limits events).NumbersIncrease := by
  have hsound : sys.Sound := by
    simp only [System.Sound, hstart, hnone]
    exact fun signal => ⟨.nil, by simp [Covered]⟩
  clear hstart hnone
  induction events generalizing sys with
  | nil => exact hsound.numbersIncrease
  | cons event events ih => exact ih _ hspares.2 (hsound.next hspares.1)

def emptyMachine : System where
  disk := { identity := none, dirs := fun _ => ∅ }
  created := fun _ => []
  process := none

def smallLimits : QueueLimits := { maxBytes := 100, maxSegmentBytes := 10, maxSegmentAge := 1 }

/-- A first start, a crash before anything was appended, a start that may be stopped, and another start. -/
def restarts (stop : Option Nat) : List Event :=
  [.start [1] 0 none, .crash fun _ => ⟨0, 0, [], false⟩, .start [2] 1 stop, .start [3] 2 none]

/-- **The number of the first segment is given out again** when the second open stops after its first call,
the unlink of the empty segment it finds. -/
theorem interrupted_open_repeats_number :
    (emptyMachine.run List.length smallLimits (restarts (some 1))).created .logs = [1, 1] := by
  decide +kernel

/-- With opens that run to their end the numbers go on. -/
theorem completed_opens_increase :
    (emptyMachine.run List.length smallLimits (restarts none)).NumbersIncrease := by
  have hnone : ∀ disk, SparesNumbers disk none := fun _ _ h => by cases h
  exact numbers_increase_of_spares List.length smallLimits emptyMachine rfl rfl (restarts none)
    ⟨fun _ => hnone _, trivial, fun _ => hnone _, fun _ => hnone _, trivial⟩

end Collecty
