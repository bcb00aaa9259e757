/-
What opening a queue finds: the numbers the signals go on with, the files that stay, and the order the held
segments come in.
-/
import Mathlib
import Fn0.Lib.OrdMap
import Fn0.Collecty.Queue

namespace Collecty

open Eff

/-! ## Directories -/

@[simp] theorem Disk.modifyDir_self (disk : Disk) (signal : Signal) (f : Dir → Dir) :
    (disk.modifyDir signal f).dirs signal = f (disk.dirs signal) := by
  simp [Disk.modifyDir]

theorem Disk.modifyDir_other (disk : Disk) {signal signal' : Signal} (f : Dir → Dir) (h : signal' ≠ signal) :
    (disk.modifyDir signal f).dirs signal' = disk.dirs signal' := by
  simp [Disk.modifyDir, h]

theorem getElem?_erase (dir : Dir) (seq n : Nat) : (dir.erase seq)[n]? = if n = seq then none else dir[n]? := by
  rw [Std.ExtTreeMap.getElem?_erase]
  simp only [compare_eq_iff_eq, @eq_comm _ seq n]

theorem mem_insert_of_mem {dir : Dir} {m seq : Nat} {file : File} (h : m ∈ dir) : m ∈ dir.insert seq file := by
  rw [Std.ExtTreeMap.mem_insert]
  exact .inr h

theorem mem_insert_self {dir : Dir} {seq : Nat} {file : File} : seq ∈ dir.insert seq file := by
  rw [Std.ExtTreeMap.mem_insert]
  exact .inl (compare_eq_iff_eq.mpr rfl)

theorem mem_erase {dir : Dir} {m seq : Nat} : m ∈ dir.erase seq ↔ m ≠ seq ∧ m ∈ dir := by
  rw [Std.ExtTreeMap.mem_erase]
  simp only [ne_eq, compare_eq_iff_eq, @eq_comm _ seq m]

theorem list_sorted (dir : Dir) : (list dir).Pairwise fun a b => a.seq < b.seq := by
  rw [list, List.pairwise_map]
  exact OrdMap.toList_sorted dir

/-- The number `open` gives the next segment of a directory. -/
def nextNumber (dir : Dir) : Nat :=
  match dir.toList.getLast? with
  | none => firstSegment
  | some (seq, _) => seq + 1

theorem lt_nextNumber {dir : Dir} {file : SegmentFile} (h : file ∈ list dir) : file.seq < nextNumber dir := by
  obtain ⟨⟨seq, data⟩, hmem, rfl⟩ := List.mem_map.mp h
  unfold nextNumber
  have hsorted := OrdMap.toList_sorted dir
  rcases hlast : dir.toList.getLast? with _ | ⟨last, data'⟩
  · rw [List.getLast?_eq_none_iff.mp hlast] at hmem
    cases hmem
  · obtain ⟨l, hl⟩ := List.getLast?_eq_some_iff.mp hlast
    rw [hl] at hmem hsorted
    rcases List.mem_append.mp hmem with hin | hin
    · have := (List.pairwise_append.mp hsorted).2.2 _ hin (last, data') (by simp)
      exact Nat.lt_succ_of_lt this
    · cases List.mem_singleton.mp hin
      exact Nat.lt_succ_self _

/-- The files of a directory that `open` keeps: all, but for a last one with nothing readable in it. -/
def survivors (dir : Dir) : List SegmentFile :=
  match dir.toList.getLast? with
  | none => list dir
  | some (_, file) => if file.reseal = .dropped then (list dir).dropLast else list dir

theorem survivors_sublist (dir : Dir) : (survivors dir).Sublist (list dir) := by
  unfold survivors
  split
  · exact List.Sublist.refl _
  · split
    · exact List.dropLast_sublist _
    · exact List.Sublist.refl _

/-- A directory once its last file is resealed at time `now`. -/
def settledDir (zstdLen : Bytes → Nat) (now : Nat) (dir : Dir) : Dir :=
  match dir.toList.getLast? with
  | none => dir
  | some (seq, file) =>
    match file.reseal with
    | .kept => dir
    | .rewritten plain => dir.insert seq ⟨zstdLen plain, now, plain, true⟩
    | .dropped => dir.erase seq

/-- The files that stay, with the sizes they have afterwards. -/
def keptFiles (zstdLen : Bytes → Nat) (dir : Dir) : List SegmentFile :=
  match dir.toList.getLast? with
  | none => list dir
  | some (seq, file) =>
    match file.reseal with
    | .kept => (list dir).dropLast ++ [{ seq, bytes := file.bytes, modified := file.modified }]
    | .rewritten plain => (list dir).dropLast ++ [{ seq, bytes := zstdLen plain, modified := file.modified }]
    | .dropped => (list dir).dropLast

/-- The number and the time of a file, which resealing leaves alone. -/
def SegmentFile.place (file : SegmentFile) : Nat × Nat := (file.seq, file.modified)

theorem keptFiles_place (zstdLen : Bytes → Nat) (dir : Dir) :
    (keptFiles zstdLen dir).map SegmentFile.place = (survivors dir).map SegmentFile.place := by
  unfold keptFiles survivors
  rcases hlast : dir.toList.getLast? with _ | ⟨seq, file⟩
  · rfl
  · obtain ⟨l, hl⟩ := List.getLast?_eq_some_iff.mp hlast
    have hlist : list dir = l.map (fun p => ⟨p.1, p.2.bytes, p.2.modified⟩)
        ++ [⟨seq, file.bytes, file.modified⟩] := by
      rw [list, hl, List.map_append]
      rfl
    rcases hr : file.reseal with _ | plain | _ <;> simp [hr, hlist, SegmentFile.place]

/-! ## An open that runs to its end -/

variable (zstdLen : Bytes → Nat)

theorem exec_call_none {f : Opening → Opening} {o : Opening} (h : o.calls = none) :
    (call f).exec o = (.ok (), f o) := by
  unfold call
  rw [exec_bind_ok (exec_get o), h]
  rfl

theorem modifyDir_of_eq {disk : Disk} {signal : Signal} {f : Dir → Dir}
    (h : f (disk.dirs signal) = disk.dirs signal) : disk.modifyDir signal f = disk := by
  unfold Disk.modifyDir
  rw [h, Function.update_eq_self]

theorem exec_reseal_none {signal : Signal} {seq : Nat} {file : File} {o : Opening} (h : o.calls = none)
    (hlast : (o.disk.dirs signal).toList.getLast? = some (seq, file)) :
    (reseal zstdLen signal seq file).exec o =
      (.ok (match file.reseal with
        | .kept => some file.bytes
        | .rewritten plain => some (zstdLen plain)
        | .dropped => none),
      { o with disk := o.disk.modifyDir signal (settledDir zstdLen o.now) }) := by
  have hsettled : settledDir zstdLen o.now (o.disk.dirs signal) = match file.reseal with
      | .kept => o.disk.dirs signal
      | .rewritten plain => (o.disk.dirs signal).insert seq ⟨zstdLen plain, o.now, plain, true⟩
      | .dropped => (o.disk.dirs signal).erase seq := by
    unfold settledDir; rw [hlast]
  unfold reseal
  rcases hr : file.reseal with _ | plain | _ <;> rw [hr] at hsettled
  · rw [modifyDir_of_eq hsettled, exec_pure]
  · rw [exec_bind_ok (exec_call_none h), exec_pure, Disk.modifyDir, Disk.modifyDir, hsettled]
  · rw [exec_bind_ok (exec_call_none h), exec_pure, Disk.modifyDir, Disk.modifyDir, hsettled]

theorem exec_recoverSignal_none (signal : Signal) {o : Opening} (h : o.calls = none) :
    (recoverSignal zstdLen signal).exec o =
      (.ok (nextNumber (o.disk.dirs signal), keptFiles zstdLen (o.disk.dirs signal)),
        { o with disk := o.disk.modifyDir signal (settledDir zstdLen o.now) }) := by
  unfold recoverSignal
  rw [exec_bind_ok (exec_get o)]
  rcases hlast : (o.disk.dirs signal).toList.getLast? with _ | ⟨seq, file⟩
  · have hsettled : settledDir zstdLen o.now (o.disk.dirs signal) = o.disk.dirs signal := by
      unfold settledDir; rw [hlast]
    rw [modifyDir_of_eq hsettled]
    simp [nextNumber, keptFiles, hlast]
  · dsimp only
    rw [exec_bind_ok (exec_reseal_none zstdLen h hlast)]
    rcases hr : file.reseal with _ | plain | _ <;> simp [nextNumber, keptFiles, hlast, hr]

/-- The files all signals keep, in the order the loop of `open` collects them. -/
def recoveredFiles (dirs : Signal → Dir) : List (Signal × SegmentFile) :=
  Signal.all.flatMap fun signal => (keptFiles zstdLen (dirs signal)).map (Prod.mk signal)

/-- A signal's queue as `open` leaves it. -/
def openedQueue (dirs : Signal → Dir) (signal : Signal) : SignalQueue where
  closed := stampedOf signal (sortRecovered (recoveredFiles zstdLen dirs))
  back := { seq := nextNumber (dirs signal), bytes := 0, stamp := 0 }
  active := some { seq := nextNumber (dirs signal), plain := [], written := 0 }
  activeSince := none

/-- What an open leaves behind that runs to its end. -/
structure Opened (o : Opening) (inner : Inner) (o' : Opening) : Prop where
  signals : inner.signals = openedQueue zstdLen o.disk.dirs
  queuedBytes : inner.stats.queuedBytes = ((recoveredFiles zstdLen o.disk.dirs).map fun entry => entry.2.bytes).sum
  underflow : inner.stats.underflow = false
  dirs : ∀ signal, o'.disk.dirs signal =
    (settledDir zstdLen o.now (o.disk.dirs signal)).insert (nextNumber (o.disk.dirs signal)) ⟨0, o.now, [], false⟩
  now : o'.now = o.now

/-- **An open that nothing stops succeeds.** -/
theorem openQueue_none (fresh : SenderId) {o : Opening} (h : o.calls = none) :
    ∃ inner o', (openQueue zstdLen fresh).exec o = (.ok inner, o') ∧ Opened zstdLen o inner o' := by
  unfold openQueue
  obtain ⟨o₁, ho₁, hcalls, hnow, hdirs⟩ : ∃ o₁, (loadIdentity fresh).exec o = (.ok (), o₁) ∧ o₁.calls = none ∧
      o₁.now = o.now ∧ o₁.disk.dirs = o.disk.dirs := by
    unfold loadIdentity
    rw [exec_bind_ok (exec_get o)]
    split
    · exact ⟨o, rfl, h, rfl, rfl⟩
    · exact ⟨_, exec_call_none h, h, rfl, rfl⟩
  rw [exec_bind_ok ho₁, exec_bind_ok (exec_recoverSignal_none zstdLen .logs hcalls),
    exec_bind_ok (exec_recoverSignal_none zstdLen .traces (by simpa using hcalls)),
    exec_bind_ok (exec_recoverSignal_none zstdLen .metrics (by simpa using hcalls))]
  dsimp only
  unfold openActive
  rw [exec_bind_ok (exec_call_none (by simpa using hcalls)), exec_bind_ok (exec_call_none (by simpa using hcalls)),
    exec_bind_ok (exec_call_none (by simpa using hcalls))]
  refine ⟨_, _, exec_pure _ _, ?_, ?_, rfl, ?_, ?_⟩
  · funext signal
    cases signal <;>
      simp [openedQueue, recoveredFiles, Signal.all, Disk.modifyDir_other, hdirs]
  · simp [recoveredFiles, Signal.all, Disk.modifyDir_other, hdirs]
  · intro signal
    cases signal <;> simp [Disk.modifyDir, hdirs, hnow]
  · simpa using hnow

variable {zstdLen} in
theorem Opened.of_exec {fresh : SenderId} {o o' : Opening} {inner : Inner} (h : o.calls = none)
    (hopen : (openQueue zstdLen fresh).exec o = (.ok inner, o')) : Opened zstdLen o inner o' := by
  obtain ⟨inner', o'', hexec, hopened⟩ := openQueue_none zstdLen fresh h
  rw [hopen] at hexec
  cases hexec
  exact hopened

/-! ## The order of the segments held after an open -/

/-- Stamping keeps the numbers and the sizes of a signal's files. -/
theorem stampedOf_files (signal : Signal) (sorted : List (Signal × SegmentFile)) :
    (stampedOf signal sorted).map (fun held => (held.seq, held.bytes)) =
      ((sorted.filter (·.1 = signal)).map Prod.snd).map fun file => (file.seq, file.bytes) := by
  unfold stampedOf
  generalize 0 = start
  induction sorted generalizing start with
  | nil => rfl
  | cons entry sorted ih =>
    obtain ⟨owner, file⟩ := entry
    by_cases hs : owner = signal <;> simp [hs, ih]

theorem stampedOf_seq (signal : Signal) (sorted : List (Signal × SegmentFile)) :
    (stampedOf signal sorted).map Held.seq = ((sorted.filter (·.1 = signal)).map Prod.snd).map SegmentFile.seq := by
  have h := congrArg (List.map Prod.fst) (stampedOf_files signal sorted)
  rwa [List.map_map, List.map_map] at h

/-- The sorting key of two files of one signal: the time, then the number. -/
theorem recoveredKey_le (signal : Signal) (a b : SegmentFile) :
    recoveredKey (signal, a) ≤ recoveredKey (signal, b) ↔
      a.modified < b.modified ∨ a.modified = b.modified ∧ a.seq ≤ b.seq := by
  simp [recoveredKey, Prod.Lex.toLex_le_toLex]

theorem filter_recoveredFiles (dirs : Signal → Dir) (signal : Signal) :
    (recoveredFiles zstdLen dirs).filter (·.1 = signal) =
      (keptFiles zstdLen (dirs signal)).map (Prod.mk signal) := by
  have hfilter : ∀ owner : Signal, ((keptFiles zstdLen (dirs owner)).map (Prod.mk owner)).filter (·.1 = signal) =
      if owner = signal then (keptFiles zstdLen (dirs owner)).map (Prod.mk owner) else [] := by
    intro owner
    by_cases hs : owner = signal <;> simp [List.filter_map, Function.comp_def, hs]
  simp only [recoveredFiles, Signal.all, List.flatMap_cons, List.flatMap_nil, List.append_nil, List.filter_append,
    hfilter]
  cases signal <;> simp

theorem keptFiles_sorted (dir : Dir) : (keptFiles zstdLen dir).Pairwise fun a b => a.seq < b.seq := by
  have hplaces : ((survivors dir).map SegmentFile.place).Pairwise fun a b => a.1 < b.1 :=
    List.pairwise_map.mpr ((list_sorted dir).sublist (survivors_sublist dir))
  rw [← keptFiles_place zstdLen] at hplaces
  exact (List.pairwise_map (f := SegmentFile.place)).mp hplaces

/-- The files of one signal in the order `open` sorts them into. -/
def sortedFiles (dirs : Signal → Dir) (signal : Signal) : List SegmentFile :=
  ((sortRecovered (recoveredFiles zstdLen dirs)).filter (·.1 = signal)).map Prod.snd

theorem sortedFiles_perm (dirs : Signal → Dir) (signal : Signal) :
    (sortedFiles zstdLen dirs signal).Perm (keptFiles zstdLen (dirs signal)) := by
  have hperm := ((List.perm_insertionSort (fun a b => recoveredKey a ≤ recoveredKey b)
    (recoveredFiles zstdLen dirs)).filter (·.1 = signal)).map Prod.snd
  rw [filter_recoveredFiles, List.map_map] at hperm
  simpa [sortedFiles, sortRecovered, Function.comp_def] using hperm

theorem openedQueue_bytes (dirs : Signal → Dir) (signal : Signal) :
    ((openedQueue zstdLen dirs signal).closed.map Held.bytes).sum =
      ((keptFiles zstdLen (dirs signal)).map SegmentFile.bytes).sum := by
  have hbytes : (openedQueue zstdLen dirs signal).closed.map Held.bytes =
      (sortedFiles zstdLen dirs signal).map SegmentFile.bytes := by
    have h := congrArg (List.map Prod.snd) (stampedOf_files signal (sortRecovered (recoveredFiles zstdLen dirs)))
    rwa [List.map_map, List.map_map] at h
  rw [hbytes, ((sortedFiles_perm zstdLen dirs signal).map SegmentFile.bytes).sum_eq]

/-- The files kept have numbers below the next one. -/
theorem keptFiles_lt {dir : Dir} {file : SegmentFile} (h : file ∈ keptFiles zstdLen dir) :
    file.seq < nextNumber dir := by
  have hplace : file.place ∈ (survivors dir).map SegmentFile.place := by
    rw [← keptFiles_place zstdLen]
    exact List.mem_map_of_mem h
  obtain ⟨file', hfile', hsame⟩ := List.mem_map.mp hplace
  have hseq : file'.seq = file.seq := congrArg Prod.fst hsame
  rw [← hseq]
  exact lt_nextNumber ((survivors_sublist _).subset hfile')

/-- The files kept are still there. -/
theorem keptFiles_present {dir : Dir} {file : SegmentFile} (h : file ∈ keptFiles zstdLen dir) (now : Nat) :
    ∃ data, (settledDir zstdLen now dir)[file.seq]? = some data := by
  have hlist : ∀ x ∈ list dir, ∃ data, dir[x.seq]? = some data := by
    intro x hx
    obtain ⟨⟨seq, data⟩, hmem, rfl⟩ := List.mem_map.mp hx
    exact ⟨data, OrdMap.mem_toList.mp hmem⟩
  unfold keptFiles at h
  unfold settledDir
  rcases hlast : dir.toList.getLast? with _ | ⟨last, data⟩
  · simp only [hlast] at h
    exact hlist file h
  · obtain ⟨l, hl⟩ := List.getLast?_eq_some_iff.mp hlast
    have hmem : dir[last]? = some data := OrdMap.mem_toList.mp (List.mem_of_getLast? hlast)
    -- the files before the last one have smaller numbers
    have hbefore : ∀ x ∈ (list dir).dropLast, x.seq < last := by
      have hsorted := list_sorted dir
      have hcut : list dir = (list dir).dropLast ++ [⟨last, data.bytes, data.modified⟩] := by
        rw [list, hl, List.map_append, List.map_cons, List.map_nil, List.dropLast_concat]
      rw [hcut] at hsorted
      exact fun x hx => (List.pairwise_append.mp hsorted).2.2 x hx _ (List.mem_singleton_self _)
    have hkept : ∀ bytes, file ∈ (list dir).dropLast ++ [⟨last, bytes, data.modified⟩] →
        file ∈ (list dir).dropLast ∨ file.seq = last := by
      intro bytes hin
      rcases List.mem_append.mp hin with hin | hin
      · exact .inl hin
      · exact .inr (by rw [List.mem_singleton.mp hin])
    rcases hr : data.reseal with _ | plain | _ <;> simp only [hlast, hr] at h ⊢
    · rcases hkept _ h with hin | hseq
      · exact hlist file (List.mem_of_mem_dropLast hin)
      · exact ⟨data, hseq ▸ hmem⟩
    · rcases hkept _ h with hin | hseq
      · have hlt := hbefore file hin
        rw [OrdMap.getElem?_insert, if_neg (by omega)]
        exact hlist file (List.mem_of_mem_dropLast hin)
      · rw [OrdMap.getElem?_insert, if_pos hseq.symm]
        exact ⟨_, rfl⟩
    · have hlt := hbefore file h
      rw [getElem?_erase, if_neg (by omega)]
      exact hlist file (List.mem_of_mem_dropLast h)

theorem sortedFiles_pairwise (dirs : Signal → Dir) (signal : Signal) :
    (sortedFiles zstdLen dirs signal).Pairwise fun a b =>
      a.modified < b.modified ∨ a.modified = b.modified ∧ a.seq ≤ b.seq := by
  have htotal : Std.Total fun a b : Signal × SegmentFile => recoveredKey a ≤ recoveredKey b :=
    ⟨fun a b => le_total _ _⟩
  have htrans : IsTrans (Signal × SegmentFile) fun a b => recoveredKey a ≤ recoveredKey b :=
    ⟨fun a b c => le_trans⟩
  have hsorted := (List.pairwise_insertionSort (fun a b => recoveredKey a ≤ recoveredKey b)
    (recoveredFiles zstdLen dirs)).sublist (List.filter_sublist (p := (·.1 = signal)))
  refine List.pairwise_map.mpr (hsorted.imp_of_mem ?_)
  rintro ⟨owner, a⟩ ⟨owner', b⟩ ha hb hle
  have howner : owner = signal := by simpa using (List.mem_filter.mp ha).2
  have howner' : owner' = signal := by simpa using (List.mem_filter.mp hb).2
  subst howner howner'
  exact (recoveredKey_le _ a b).mp hle

/-- **The times put the files in the order of their numbers exactly when they do not run against it.** -/
theorem sortedFiles_increasing_iff (dirs : Signal → Dir) (signal : Signal) :
    ((sortedFiles zstdLen dirs signal).map SegmentFile.seq).Pairwise (· < ·) ↔
      (survivors (dirs signal)).Pairwise fun a b => a.modified ≤ b.modified := by
  have hperm := sortedFiles_perm zstdLen dirs signal
  have hkept := keptFiles_sorted zstdLen (dirs signal)
  have hplaces : ((survivors (dirs signal)).Pairwise fun a b => a.modified ≤ b.modified) ↔
      (keptFiles zstdLen (dirs signal)).Pairwise fun a b => a.modified ≤ b.modified := by
    have h := keptFiles_place zstdLen (dirs signal)
    have hmap : ∀ l : List SegmentFile, ((l.map SegmentFile.place).Pairwise fun a b => a.2 ≤ b.2) ↔
        l.Pairwise fun a b => a.modified ≤ b.modified := fun l => List.pairwise_map
    rw [← hmap, ← hmap, h]
  rw [hplaces, List.pairwise_map]
  constructor
  · -- two lists of the same files in the order of their numbers are one list
    intro hseq
    have heq : sortedFiles zstdLen dirs signal = keptFiles zstdLen (dirs signal) :=
      hperm.eq_of_pairwise (fun a b _ _ hab hba => absurd (hab.trans hba) (lt_irrefl _)) hseq hkept
    rw [← heq]
    refine (sortedFiles_pairwise zstdLen dirs signal).imp ?_
    rintro a b (hlt | ⟨heq, -⟩)
    · exact hlt.le
    · exact heq.le
  · intro htimes
    have hkeys : (keptFiles zstdLen (dirs signal)).Pairwise fun a b =>
        a.modified < b.modified ∨ a.modified = b.modified ∧ a.seq ≤ b.seq := by
      refine (htimes.and hkept).imp ?_
      rintro a b ⟨hle, hlt⟩
      rcases hle.lt_or_eq with h | h
      · exact .inl h
      · exact .inr ⟨h, hlt.le⟩
    have hnodup : ((keptFiles zstdLen (dirs signal)).map SegmentFile.seq).Nodup :=
      List.pairwise_map.mpr (hkept.imp fun hlt => hlt.ne)
    have heq : sortedFiles zstdLen dirs signal = keptFiles zstdLen (dirs signal) := by
      refine hperm.eq_of_pairwise (fun a b ha hb hab hba => ?_) (sortedFiles_pairwise zstdLen dirs signal) hkeys
      exact List.inj_on_of_nodup_map hnodup (hperm.mem_iff.mp ha) hb (by omega)
    rw [heq]
    exact hkept

end Collecty
