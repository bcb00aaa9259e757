/-
Retention on a local disk (signy/src/retention.rs): a pass decides which parts have expired, waits for the locks that
keep queries and merges away, and deletes the directories of those that are still registered.

A pass reads the policies, decides and deletes in three steps of a run; while it waits for its locks between them,
policies change, time goes by, and parts come and go. A part has the rows it holds beside the bounds that its metadata
gives, which are taken as correct. Removing a directory can fail: before anything is unlinked, with some of its files
unlinked, or when its parent is synced.
-/
import Fn0.Lib.MapTotal
import Fn0.Lib.Steps
import Fn0.Signy.TenantPolicy

namespace Signy.Retention

open Std (ExtTreeMap)
open Policy (TenantRetention PolicyEntry TenantPolicy)

local instance transCmp_compare {ι : Type} [LinearOrder ι] : Std.TransCmp (compare : ι → ι → Ordering) := inferInstance

/-! ## Cutoffs -/

def minI64 : Int := -9223372036854775808

def maxI64 : Nat := 9223372036854775807

/-- Policies resolved against one instant. -/
structure Cutoffs (τ : Type) [LinearOrder τ] where
  policies : ExtTreeMap τ PolicyEntry compare
  nowNs : Int

namespace Cutoffs

variable {τ : Type} [LinearOrder τ]

def cutoffNs (cutoffs : Cutoffs τ) (tenant : τ) (signal : Policy.Signal) : Option Int :=
  match (cutoffs.policies[tenant]?).map fun entry : PolicyEntry => entry.retentionFor signal with
  | none => none
  | some .infinite => none
  | some (.finite period) => some (max minI64 (cutoffs.nowNs - (min period maxI64 : Nat)))

def isExpired (cutoffs : Cutoffs τ) (tenant : τ) (signal : Policy.Signal) (timestampNs : Int) : Bool :=
  (cutoffs.cutoffNs tenant signal).any fun cutoff => timestampNs < cutoff

end Cutoffs

/-! ## Parts -/

section Parts

variable (τ : Type)

structure TenantSegment where
  tenant : τ
  maxTsNs : Int

structure PartMeta where
  tenants : List (TenantSegment τ)

structure TraceSegment where
  tenant : τ
  rowGroupStart : Nat
  rowGroupEnd : Nat

structure TracePartMeta where
  tenants : List (TraceSegment τ)
  rowGroupMaxTs : List Int
  maxTsNs : Int

structure SeriesPartMeta where
  tenants : List τ
  maxTsNs : Int

/-- The metadata of a part of a signal. -/
def Meta : Policy.Signal → Type
  | .logs => PartMeta τ
  | .traces => TracePartMeta τ
  | .metrics => SeriesPartMeta τ

end Parts

variable {τ : Type} [LinearOrder τ]

/-- The bound of a tenant's spans: that of its row groups, or of the part where they are not listed. -/
def TracePartMeta.segmentMax (m : TracePartMeta τ) (segment : TraceSegment τ) : Int :=
  if segment.rowGroupStart ≤ segment.rowGroupEnd ∧ segment.rowGroupEnd ≤ m.rowGroupMaxTs.length then
    ((m.rowGroupMaxTs.drop segment.rowGroupStart).take (segment.rowGroupEnd - segment.rowGroupStart)).max?.getD
      m.maxTsNs
  else m.maxTsNs

namespace Cutoffs

def logPartFullyExpired (cutoffs : Cutoffs τ) (m : PartMeta τ) : Bool :=
  !m.tenants.isEmpty && m.tenants.all fun segment => cutoffs.isExpired segment.tenant .logs segment.maxTsNs

def tracePartFullyExpired (cutoffs : Cutoffs τ) (m : TracePartMeta τ) : Bool :=
  if m.tenants.isEmpty then false
  else m.tenants.all fun segment => cutoffs.isExpired segment.tenant .traces (m.segmentMax segment)

def metricPartFullyExpired (cutoffs : Cutoffs τ) (m : SeriesPartMeta τ) : Bool :=
  !m.tenants.isEmpty && m.tenants.all fun tenant => cutoffs.isExpired tenant .metrics m.maxTsNs

def fullyExpired (cutoffs : Cutoffs τ) : (signal : Policy.Signal) → Meta τ signal → Bool
  | .logs, m => cutoffs.logPartFullyExpired m
  | .traces, m => cutoffs.tracePartFullyExpired m
  | .metrics, m => cutoffs.metricPartFullyExpired m

end Cutoffs

/-- A row, span or sample. -/
structure Row (τ : Type) where
  tenant : τ
  timestampNs : Int

/-- The bounds in the metadata of a part cover a row that it holds. -/
def Covers : (signal : Policy.Signal) → Meta τ signal → Row τ → Prop
  | .logs, (m : PartMeta τ), row => ∃ segment ∈ m.tenants, segment.tenant = row.tenant ∧
      row.timestampNs ≤ segment.maxTsNs
  | .traces, (m : TracePartMeta τ), row => row.timestampNs ≤ m.maxTsNs ∧
      ∃ segment ∈ m.tenants, segment.tenant = row.tenant ∧
        ∃ group, segment.rowGroupStart ≤ group ∧ group < segment.rowGroupEnd ∧
          ∀ bound, m.rowGroupMaxTs[group]? = some bound → row.timestampNs ≤ bound
  | .metrics, (m : SeriesPartMeta τ), row => row.tenant ∈ m.tenants ∧ row.timestampNs ≤ m.maxTsNs

structure Part (τ : Type) [LinearOrder τ] (signal : Policy.Signal) where
  partition : String
  metadata : Meta τ signal
  rows : List (Row τ)
  covered : ∀ row ∈ rows, Covers signal metadata row

/-- The files of a part. -/
def partFiles : Policy.Signal → List String
  | .logs => ["data.parquet", "index.bin", "meta.json"]
  | .traces => ["data.parquet", "trace.bloom", "meta.json"]
  | .metrics => ["data.bin", "index.bin", "labels.bin", "series.bloom", "meta.json"]

/-! ## Directories -/

/-- A part directory. -/
structure DirPath (ι : Type) where
  signal : Policy.Signal
  partition : String
  id : ι
deriving DecidableEq

/-- The files of each directory that is there. -/
abbrev Disk (ι : Type) : Type := DirPath ι → Option (List String)

/-- What goes wrong with a directory when it is to be removed. -/
structure Faults (ι : Type) where
  inspect : DirPath ι → Bool
  /-- the files that are unlinked before the failure -/
  unlink : DirPath ι → Option (List String)
  /-- the sync of the parent, once the directory has been seen to -/
  sync : DirPath ι → Bool

inductive RemoveError (ι : Type)
  | inspect (dir : DirPath ι)
  | remove (dir : DirPath ι)
  | fsync (dir : DirPath ι)
deriving DecidableEq

variable {ι : Type} [LinearOrder ι]

/-- `remove_part_dirs` of one directory. -/
def removePartDirs (faults : Faults ι) (disk : Disk ι) (dir : DirPath ι) : Disk ι × Except (RemoveError ι) Unit :=
  if faults.inspect dir then (disk, .error (.inspect dir))
  else
    match disk dir with
    | none => (disk, if faults.sync dir then .error (.fsync dir) else .ok ())
    | some files =>
      match faults.unlink dir with
      | some gone => (Function.update disk dir (some (files.filter (· ∉ gone))), .error (.remove dir))
      | none => (Function.update disk dir none, if faults.sync dir then .error (.fsync dir) else .ok ())

/-! ## A pass -/

/-- The parts that are registered. -/
abbrev Registries (τ ι : Type) [LinearOrder τ] [LinearOrder ι] : Type :=
  (signal : Policy.Signal) → ExtTreeMap ι (Part τ signal) compare

/-- The directory of a part that is registered under its id. -/
def Registries.holds (registries : Registries τ ι) (dir : DirPath ι) : Bool :=
  (registries dir.signal)[dir.id]?.any fun part => part.partition = dir.partition

/-- The expired parts of a signal, by id, up to the size of a batch. -/
def selectSignal (cutoffs : Cutoffs τ) (batchSize : Nat) (registries : Registries τ ι) (signal : Policy.Signal) :
    List (DirPath ι) :=
  let expired := (registries signal).toList.filter fun entry => cutoffs.fullyExpired signal entry.2.metadata
  (expired.take (max batchSize 1)).map fun entry => ⟨signal, entry.2.partition, entry.1⟩

/-- The decision of a pass: log parts, then trace parts, then metric parts. -/
def select (cutoffs : Cutoffs τ) (batchSize : Nat) (registries : Registries τ ι) : List (DirPath ι) :=
  [Policy.Signal.logs, .traces, .metrics].flatMap (selectSignal cutoffs batchSize registries)

/-- The deletions of a pass, one directory after the other, up to the first that fails. -/
def removeDirs (faults : Faults ι) (registries : Registries τ ι) :
    List (DirPath ι) → Disk ι → Disk ι × Except (RemoveError ι) (List (DirPath ι))
  | [], disk => (disk, .ok [])
  | dir :: dirs, disk =>
    if registries.holds dir then
      match removePartDirs faults disk dir with
      | (disk, .error error) => (disk, .error error)
      | (disk, .ok ()) =>
        match removeDirs faults registries dirs disk with
        | (disk, .error error) => (disk, .error error)
        | (disk, .ok removed) => (disk, .ok (dir :: removed))
    else removeDirs faults registries dirs disk

def unregister (registries : Registries τ ι) (removed : List (DirPath ι)) : Registries τ ι := fun signal =>
  (removed.filter (·.signal = signal)).foldl (fun parts dir => parts.erase dir.id) (registries signal)

/-- What a pass does with both locks held, where no parts are kept elsewhere. -/
def removeExpired (faults : Faults ι) (dirs : List (DirPath ι)) (registries : Registries τ ι) (disk : Disk ι) :
    Registries τ ι × Disk ι × Except (RemoveError ι) Nat :=
  match removeDirs faults registries dirs disk with
  | (disk, .error error) => (registries, disk, .error error)
  | (disk, .ok removed) => (unregister registries removed, disk, .ok removed.length)

/-! ## Files of registered parts -/

/-- Every registered part has all its files. -/
def Whole (registries : Registries τ ι) (disk : Disk ι) : Prop :=
  ∀ dir, registries.holds dir = true → ∃ files, disk dir = some files ∧ ∀ file ∈ partFiles dir.signal, file ∈ files

/-- The removal of a directory fails. -/
def Faults.fails (faults : Faults ι) (dir : DirPath ι) : Bool :=
  faults.inspect dir || (faults.unlink dir).isSome || faults.sync dir

/-- It fails, and no file of the part is unlinked. -/
def Faults.spares (faults : Faults ι) (dir : DirPath ι) : Bool :=
  faults.inspect dir || (faults.unlink dir).any fun gone => (partFiles dir.signal).all (· ∉ gone)

section Removal

variable {faults : Faults ι} {registries : Registries τ ι} {disk : Disk ι} {dir other : DirPath ι}
  {dirs : List (DirPath ι)}

theorem removePartDirs_of_ne (h : other ≠ dir) : (removePartDirs faults disk dir).1 other = disk other := by
  rw [removePartDirs]
  split
  next => rfl
  next =>
    split
    next => rfl
    next =>
      split
      next => exact Function.update_of_ne h _ _
      next => exact Function.update_of_ne h _ _

theorem removePartDirs_none (h : disk dir = none) : (removePartDirs faults disk dir).1 = disk := by
  rw [removePartDirs]
  split
  next => rfl
  next => rw [h]

theorem removePartDirs_of_not_fails (disk : Disk ι) (h : faults.fails dir = false) :
    removePartDirs faults disk dir = (Function.update disk dir none, .ok ()) := by
  simp only [Faults.fails, Bool.or_eq_false_iff, Option.isSome_eq_false_iff, Option.isNone_iff_eq_none] at h
  obtain ⟨⟨hinspect, hunlink⟩, hsync⟩ := h
  rw [removePartDirs, hinspect, hunlink, hsync]
  cases hdisk : disk dir with
  | none => simp [hdisk]
  | some files => rfl

/-- A directory that was there is removed without an error just if nothing fails. -/
theorem not_fails_of_ok (hdisk : disk dir ≠ none) (h : (removePartDirs faults disk dir).2 = .ok ()) :
    faults.fails dir = false := by
  rw [removePartDirs] at h
  split at h
  next => cases h
  next hinspect =>
    split at h
    next hnone => exact absurd hnone hdisk
    next =>
      split at h
      next => cases h
      next hunlink =>
        split at h
        next => cases h
        next hsync => simp [Faults.fails, hinspect, hunlink, hsync]

theorem removeDirs_cons_of_not (h : registries.holds dir = false) :
    removeDirs faults registries (dir :: dirs) disk = removeDirs faults registries dirs disk := by
  rw [removeDirs, h]
  rfl

/-- The removal of the first directory fails. -/
theorem removeDirs_cons_error {error : RemoveError ι} (h : registries.holds dir = true)
    (herror : (removePartDirs faults disk dir).2 = .error error) :
    removeDirs faults registries (dir :: dirs) disk = ((removePartDirs faults disk dir).1, .error error) := by
  rw [removeDirs, if_pos h]
  split
  next heq =>
    rw [heq] at herror ⊢
    cases herror
    rfl
  next heq =>
    rw [heq] at herror
    cases herror

/-- The first directory is removed. -/
theorem removeDirs_cons_ok (h : registries.holds dir = true) (hok : (removePartDirs faults disk dir).2 = .ok ()) :
    removeDirs faults registries (dir :: dirs) disk =
      ((removeDirs faults registries dirs (removePartDirs faults disk dir).1).1,
        (removeDirs faults registries dirs (removePartDirs faults disk dir).1).2.map (dir :: ·)) := by
  rw [removeDirs, if_pos h]
  split
  next heq =>
    rw [heq] at hok
    cases hok
  next heq =>
    rw [heq]
    split
    next heq' =>
      rw [heq']
      rfl
    next heq' =>
      rw [heq']
      rfl

theorem removeDirs_of_none (h : disk other = none) : (removeDirs faults registries dirs disk).1 other = none := by
  induction dirs generalizing disk with
  | nil => exact h
  | cons dir dirs ih =>
    have hafter : (removePartDirs faults disk dir).1 other = none := by
      by_cases heq : other = dir
      · subst heq
        rwa [removePartDirs_none h]
      · rwa [removePartDirs_of_ne heq]
    cases hholds : registries.holds dir with
    | false =>
      rw [removeDirs_cons_of_not hholds]
      exact ih h
    | true =>
      cases hresult : (removePartDirs faults disk dir).2 with
      | error error => rwa [removeDirs_cons_error hholds hresult]
      | ok =>
        rw [removeDirs_cons_ok hholds hresult]
        exact ih hafter

/-- Only the directories it was given change, and of those only registered ones. -/
theorem removeDirs_of_ne (h : ¬ (other ∈ dirs ∧ registries.holds other = true)) :
    (removeDirs faults registries dirs disk).1 other = disk other := by
  induction dirs generalizing disk with
  | nil => rfl
  | cons dir dirs ih =>
    have hdirs : ¬ (other ∈ dirs ∧ registries.holds other = true) := fun hm => h ⟨List.mem_cons_of_mem _ hm.1, hm.2⟩
    cases hholds : registries.holds dir with
    | false =>
      rw [removeDirs_cons_of_not hholds]
      exact ih hdirs
    | true =>
      have hne : other ≠ dir := by
        rintro rfl
        exact h ⟨List.mem_cons_self, hholds⟩
      have hafter : (removePartDirs faults disk dir).1 other = disk other := removePartDirs_of_ne hne
      cases hresult : (removePartDirs faults disk dir).2 with
      | error error => rwa [removeDirs_cons_error hholds hresult]
      | ok =>
        rw [removeDirs_cons_ok hholds hresult]
        exact (ih hdirs).trans hafter

/-- Where nothing fails, all of them are removed. -/
theorem removeDirs_of_not_fails (h : ∀ dir ∈ dirs, registries.holds dir = true → faults.fails dir = false) :
    (removeDirs faults registries dirs disk).2 = .ok (dirs.filter registries.holds) := by
  induction dirs generalizing disk with
  | nil => rfl
  | cons dir dirs ih =>
    obtain ⟨hfirst, hrest⟩ := List.forall_mem_cons.mp h
    cases hholds : registries.holds dir with
    | false =>
      rw [removeDirs_cons_of_not hholds, List.filter_cons_of_neg (by rw [hholds]; decide)]
      exact ih hrest
    | true =>
      have hremoved := removePartDirs_of_not_fails disk (hfirst hholds)
      rw [removeDirs_cons_ok hholds (by rw [hremoved]), List.filter_cons_of_pos hholds, ih hrest]
      rfl

/-- Where all of them were removed, nothing failed with those that were there. -/
theorem not_fails_of_removeDirs {removed : List (DirPath ι)}
    (hok : (removeDirs faults registries dirs disk).2 = .ok removed) :
    ∀ dir ∈ dirs, registries.holds dir = true → disk dir ≠ none → faults.fails dir = false := by
  induction dirs generalizing disk removed with
  | nil => exact fun _ hm => by cases hm
  | cons dir dirs ih =>
    refine List.forall_mem_cons.mpr ?_
    cases hholds : registries.holds dir with
    | false =>
      rw [removeDirs_cons_of_not hholds] at hok
      exact ⟨fun htrue => (by cases htrue), ih hok⟩
    | true =>
      cases hresult : (removePartDirs faults disk dir).2 with
      | error error =>
        rw [removeDirs_cons_error hholds hresult] at hok
        cases hok
      | ok =>
        rw [removeDirs_cons_ok hholds hresult] at hok
        cases hrest : (removeDirs faults registries dirs (removePartDirs faults disk dir).1).2 with
        | error error =>
          rw [hrest] at hok
          cases hok
        | ok removed' =>
          refine ⟨fun _ hdisk => not_fails_of_ok hdisk hresult, fun other hm hother hdisk => ?_⟩
          by_cases heq : other = dir
          · subst heq
            exact not_fails_of_ok hdisk hresult
          · refine ih hrest other hm hother ?_
            rwa [removePartDirs_of_ne heq]

/-! ## What a pass leaves -/

theorem removeDirs_filter :
    removeDirs faults registries (dirs.filter registries.holds) disk = removeDirs faults registries dirs disk := by
  induction dirs generalizing disk with
  | nil => rfl
  | cons dir dirs ih =>
    cases hholds : registries.holds dir with
    | false => rw [List.filter_cons_of_neg (by rw [hholds]; decide), ih, removeDirs_cons_of_not hholds]
    | true =>
      rw [List.filter_cons_of_pos hholds]
      cases hresult : (removePartDirs faults disk dir).2 with
      | error error => rw [removeDirs_cons_error hholds hresult, removeDirs_cons_error hholds hresult]
      | ok => rw [removeDirs_cons_ok hholds hresult, removeDirs_cons_ok hholds hresult, ih]

theorem getElem?_foldl_erase {α : Type} (gone : List (DirPath ι)) (parts : ExtTreeMap ι α compare) (id : ι) :
    (gone.foldl (fun parts dir => parts.erase dir.id) parts)[id]? = if id ∈ gone.map (·.id) then none
      else parts[id]? := by
  induction gone generalizing parts with
  | nil => rfl
  | cons first gone ih =>
    rw [List.foldl_cons, ih, OrdMap.getElem?_erase]
    by_cases hfirst : first.id = id
    · simp [hfirst]
    · simp [hfirst, Ne.symm hfirst]

theorem holds_unregister {removed : List (DirPath ι)} : (unregister registries removed).holds dir = true ↔
    registries.holds dir = true ∧ ∀ gone ∈ removed, gone.signal = dir.signal → gone.id ≠ dir.id := by
  rw [Registries.holds, unregister, getElem?_foldl_erase]
  split
  next hmem =>
    obtain ⟨gone, hgone, hid⟩ := List.mem_map.mp hmem
    obtain ⟨hm, hsignal⟩ := List.mem_filter.mp hgone
    exact ⟨fun h => (by cases h), fun h => absurd hid (h.2 gone hm (of_decide_eq_true hsignal))⟩
  next hnot =>
    refine ⟨fun h => ⟨h, fun gone hm hsignal hid => hnot ?_⟩, fun h => h.1⟩
    exact List.mem_map.mpr ⟨gone, List.mem_filter.mpr ⟨hm, decide_eq_true hsignal⟩, hid⟩

/-- A part's files survive the removal of its directory just if that fails before it unlinks one of them. -/
theorem spares_iff {files : List String} (hdisk : disk dir = some files)
    (hfiles : ∀ file ∈ partFiles dir.signal, file ∈ files) :
    faults.spares dir = true ↔
      ∃ files', (removePartDirs faults disk dir).1 dir = some files' ∧ ∀ file ∈ partFiles dir.signal,
        file ∈ files' := by
  rw [Faults.spares, removePartDirs, hdisk]
  cases faults.inspect dir with
  | true => exact ⟨fun _ => ⟨files, hdisk, hfiles⟩, fun _ => rfl⟩
  | false =>
    cases hunlink : faults.unlink dir with
    | none =>
      refine ⟨fun h => (by cases h), ?_⟩
      rintro ⟨files', hnone, -⟩
      rw [if_neg (by decide)] at hnone
      dsimp only at hnone
      rw [Function.update_self] at hnone
      cases hnone
    | some gone =>
      rw [if_neg (by decide)]
      dsimp only
      rw [Function.update_self]
      simp only [Bool.false_or, Option.any_some, List.all_eq_true, decide_eq_true_eq, Option.some.injEq,
        exists_eq_left',
        List.mem_filter]
      exact ⟨fun h file hm => ⟨hfiles file hm, h file hm⟩, fun h file hm => (h file hm).2⟩

theorem error_of_spares (hdisk : disk dir ≠ none) (h : faults.spares dir = true) :
    ∃ error, (removePartDirs faults disk dir).2 = .error error := by
  cases hresult : (removePartDirs faults disk dir).2 with
  | error error => exact ⟨error, rfl⟩
  | ok =>
    have hfails := not_fails_of_ok hdisk hresult
    simp only [Faults.fails, Bool.or_eq_false_iff, Option.isSome_eq_false_iff, Option.isNone_iff_eq_none] at hfails
    rw [Faults.spares, hfails.1.1, hfails.1.2] at h
    cases h

/-- The first removal of a pass fails and leaves the part its files, or none fails. -/
def Faults.clean (faults : Faults ι) : List (DirPath ι) → Bool
  | [] => true
  | dir :: dirs => faults.spares dir || (dir :: dirs).all (!faults.fails ·)

/-- What a pass leaves behind, of what it found. -/
def Consistent (faults : Faults ι) (dirs : List (DirPath ι)) (registries : Registries τ ι) (disk : Disk ι) : Prop :=
  Whole (removeExpired faults dirs registries disk).1 (removeExpired faults dirs registries disk).2.1 ∧
    ∀ dir, disk dir ≠ none → (removeExpired faults dirs registries disk).2.1 dir = none →
      (removeExpired faults dirs registries disk).1.holds dir = false

theorem removeExpired_ok {removed : List (DirPath ι)} (h : (removeDirs faults registries dirs disk).2 = .ok removed) :
    removeExpired faults dirs registries disk =
      (unregister registries removed, (removeDirs faults registries dirs disk).1, .ok removed.length) := by
  rw [removeExpired]
  split
  next heq =>
    rw [heq] at h
    cases h
  next heq =>
    rw [heq] at h ⊢
    cases h
    rfl

theorem removeExpired_error {error : RemoveError ι} (h : (removeDirs faults registries dirs disk).2 = .error error) :
    removeExpired faults dirs registries disk = (registries, (removeDirs faults registries dirs disk).1,
      .error error) := by
  rw [removeExpired]
  split
  next heq =>
    rw [heq] at h ⊢
    cases h
    rfl
  next heq =>
    rw [heq] at h
    cases h

theorem consistent_of_not_fails (hwhole : Whole registries disk)
    (h : ∀ dir ∈ dirs, registries.holds dir = true → faults.fails dir = false) :
      Consistent faults dirs registries disk := by
  rw [Consistent, removeExpired_ok (removeDirs_of_not_fails h)]
  refine ⟨fun dir hholds => ?_, fun dir hdisk hgone => ?_⟩
  · obtain ⟨hholds, hnot⟩ := holds_unregister.mp hholds
    have hkept : ¬ (dir ∈ dirs ∧ registries.holds dir = true) := fun hm =>
      hnot dir (List.mem_filter.mpr hm) rfl rfl
    obtain ⟨files, hfiles, hall⟩ := hwhole dir hholds
    exact ⟨files, (removeDirs_of_ne hkept).trans hfiles, hall⟩
  · by_contra hholds
    obtain ⟨hholds, hnot⟩ := holds_unregister.mp (Bool.eq_true_of_not_eq_false hholds)
    have hkept : ¬ (dir ∈ dirs ∧ registries.holds dir = true) := fun hm =>
      hnot dir (List.mem_filter.mpr hm) rfl rfl
    exact hdisk ((removeDirs_of_ne hkept).symm.trans hgone)

theorem removeExpired_filter :
    removeExpired faults (dirs.filter registries.holds) registries disk = removeExpired faults dirs
      registries disk := by
  rw [removeExpired, removeExpired, removeDirs_filter]

/-- **Registered parts keep their files just if no removal fails after another.** A pass that starts with the files of
all registered parts there leaves every part that is still registered with all its files, and none registered whose
directory it removed, if none of its removals fails or the first one does without unlinking a file of the part; and only
then. -/
theorem removeExpired_consistent_iff (hwhole : Whole registries disk) :
    Consistent faults dirs registries disk ↔ faults.clean (dirs.filter registries.holds) = true := by
  have hheld : ∀ dir ∈ dirs.filter registries.holds, registries.holds dir = true :=
    fun dir hm => (List.mem_filter.mp hm).2
  rw [Consistent, ← removeExpired_filter, ← Consistent]
  generalize dirs.filter registries.holds = active at hheld
  cases active with
  | nil => exact ⟨fun _ => rfl, fun _ => consistent_of_not_fails hwhole fun _ hm => by cases hm⟩
  | cons dir rest =>
    have hdir := hheld dir List.mem_cons_self
    obtain ⟨files, hdisk, hfiles⟩ := hwhole dir hdir
    have hthere : disk dir ≠ none := by rw [hdisk]; exact Option.some_ne_none _
    rw [Faults.clean, Bool.or_eq_true, List.all_eq_true]
    constructor
    · rintro ⟨hafter, -⟩
      cases hresult : (removeDirs faults registries (dir :: rest) disk).2 with
      | ok removed =>
        refine .inr fun other hm => ?_
        obtain ⟨files', hdisk', -⟩ := hwhole other (hheld other hm)
        rw [not_fails_of_removeDirs hresult other hm (hheld other hm) (by rw [hdisk']; exact Option.some_ne_none _)]
        rfl
      | error error =>
        rw [removeExpired_error hresult] at hafter
        obtain ⟨files', hdisk', hfiles'⟩ := hafter dir hdir
        refine .inl ((spares_iff hdisk hfiles).mpr ⟨files', ?_, hfiles'⟩)
        cases hfirst : (removePartDirs faults disk dir).2 with
        | error error' => rwa [removeDirs_cons_error hdir hfirst] at hdisk'
        | ok =>
          -- the part is gone for good, and still registered
          have hgone : (removePartDirs faults disk dir).1 dir = none := by
            rw [removePartDirs_of_not_fails disk (not_fails_of_ok hthere hfirst)]
            exact Function.update_self _ _ _
          rw [removeDirs_cons_ok hdir hfirst] at hdisk'
          rw [removeDirs_of_none hgone] at hdisk'
          cases hdisk'
    · rintro (hspares | hnone)
      · obtain ⟨error, hfirst⟩ := error_of_spares hthere hspares
        obtain ⟨files', hdisk', hfiles'⟩ := (spares_iff hdisk hfiles).mp hspares
        have hresult : removeDirs faults registries (dir :: rest) disk = ((removePartDirs faults disk dir).1,
          .error error) :=
          removeDirs_cons_error hdir hfirst
        rw [Consistent, removeExpired_error (by rw [hresult]), hresult]
        have hkeeps (other : DirPath ι) (hne : other ≠ dir) : (removePartDirs faults disk dir).1 other = disk other :=
          removePartDirs_of_ne hne
        refine ⟨fun other hholds => ?_, fun other hthere hgone => ?_⟩
        · by_cases heq : other = dir
          · subst heq
            exact ⟨files', hdisk', hfiles'⟩
          · rw [hkeeps other heq]
            exact hwhole other hholds
        · by_cases heq : other = dir
          · subst heq
            rw [hdisk'] at hgone
            cases hgone
          · rw [hkeeps other heq] at hgone
            exact absurd hgone hthere
      · refine consistent_of_not_fails hwhole fun other hm _ => ?_
        have hfails := hnone other hm
        rwa [Bool.not_eq_true'] at hfails

end Removal

/-! ### Two parts of which one cannot be removed -/

section Cases

/-- A log part of tenant 0 with one row. -/
def smallPart : Part Nat .logs where
  partition := "2026-01-01"
  metadata := ({ tenants := [⟨0, 5⟩] } : PartMeta Nat)
  rows := [⟨0, 5⟩]
  covered row hrow := by
    rw [List.mem_singleton.mp hrow]
    exact ⟨⟨0, 5⟩, List.mem_singleton_self _, rfl, le_rfl⟩

def twoParts : Registries Nat Nat
  | .logs => ExtTreeMap.ofList [(0, smallPart), (1, smallPart)] compare
  | .traces => ∅
  | .metrics => ∅

def smallDir (id : Nat) : DirPath Nat := ⟨.logs, "2026-01-01", id⟩

def twoDirs : Disk Nat := fun dir => if dir = smallDir 0 ∨ dir = smallDir 1 then some (partFiles .logs) else none

/-- A directory that cannot be looked at. -/
def stuckAt (id : Nat) : Faults Nat := ⟨(· = smallDir id), fun _ => none, fun _ => false⟩

theorem twoParts_holds {dir : DirPath Nat} (h : twoParts.holds dir = true) : dir = smallDir 0 ∨ dir = smallDir 1 := by
  obtain ⟨signal, partition, id⟩ := dir
  cases signal with
  | logs =>
    obtain ⟨part, hpart, hpartition⟩ := Steps.exists_of_any h
    have hm := (OrdMap.getElem?_ofList (by simp)).mp hpart
    simp only [List.mem_cons, Prod.mk.injEq, List.not_mem_nil, or_false] at hm
    have hname : "2026-01-01" = partition := by
      rcases hm with ⟨-, rfl⟩ | ⟨-, rfl⟩ <;> exact of_decide_eq_true hpartition
    subst hname
    rcases hm with ⟨rfl, -⟩ | ⟨rfl, -⟩
    · exact .inl rfl
    · exact .inr rfl
  | traces => cases h
  | metrics => cases h

theorem twoParts_whole : Whole twoParts twoDirs := by
  intro dir hdir
  have hdirs := twoParts_holds hdir
  refine ⟨partFiles .logs, if_pos hdirs, fun file hfile => ?_⟩
  rcases hdirs with rfl | rfl <;> exact hfile

theorem removeExpired_consistent_first : Consistent (stuckAt 0) [smallDir 0, smallDir 1] twoParts twoDirs :=
  (removeExpired_consistent_iff twoParts_whole).mpr (by decide +kernel)

/-- **A registered part without files.** The first of two expired log parts is removed, the second cannot be: the pass
ends with an error before it unregisters the first. -/
theorem removeExpired_leaves_registered : Whole twoParts twoDirs ∧
    (removeExpired (stuckAt 1) [smallDir 0, smallDir 1] twoParts twoDirs).1.holds (smallDir 0) = true ∧
      (removeExpired (stuckAt 1) [smallDir 0, smallDir 1] twoParts twoDirs).2.1 (smallDir 0) = none ∧
      (removeExpired (stuckAt 1) [smallDir 0, smallDir 1] twoParts twoDirs).2.2 = .error (.inspect (smallDir 1)) :=
  ⟨twoParts_whole, by decide +kernel, by decide +kernel, by decide +kernel⟩

end Cases

/-! ## What has expired -/

theorem Cutoffs.isExpired_of_le {cutoffs : Cutoffs τ} {tenant : τ} {signal : Policy.Signal} {ts bound : Int}
    (hle : ts ≤ bound)
    (h : cutoffs.isExpired tenant signal bound = true) : cutoffs.isExpired tenant signal ts = true := by
  obtain ⟨cutoff, hcutoff, hlt⟩ := Steps.exists_of_any h
  rw [Cutoffs.isExpired, hcutoff]
  exact decide_eq_true (hle.trans_lt (of_decide_eq_true hlt))

omit [LinearOrder τ] in
/-- A span in a row group of its tenant is within the bound of the tenant's segment. -/
theorem TracePartMeta.le_segmentMax {m : TracePartMeta τ} {segment : TraceSegment τ} {ts : Int} (hpart : ts ≤ m.maxTsNs)
    {group : Nat} (hstart : segment.rowGroupStart ≤ group) (hend : group < segment.rowGroupEnd)
    (hbound : ∀ bound, m.rowGroupMaxTs[group]? = some bound → ts ≤ bound) : ts ≤ m.segmentMax segment := by
  rw [TracePartMeta.segmentMax]
  split
  next hrange =>
    obtain ⟨bound, hget⟩ : ∃ bound, m.rowGroupMaxTs[group]? = some bound :=
      ⟨_, List.getElem?_eq_getElem (hend.trans_le hrange.2)⟩
    have hmem : bound ∈ (m.rowGroupMaxTs.drop segment.rowGroupStart).take
      (segment.rowGroupEnd - segment.rowGroupStart) := by
      refine List.mem_of_getElem? (i := group - segment.rowGroupStart) ?_
      rw [List.getElem?_take_of_lt (by omega), List.getElem?_drop, Nat.add_sub_cancel' hstart, hget]
    cases hmax : ((m.rowGroupMaxTs.drop segment.rowGroupStart).take
        (segment.rowGroupEnd - segment.rowGroupStart)).max? with
    | none => exact hpart
    | some greatest => exact (hbound bound hget).trans ((List.max?_eq_some_iff.mp hmax).2 bound hmem)
  next => exact hpart

theorem Cutoffs.isExpired_segmentMax {cutoffs : Cutoffs τ} {m : TracePartMeta τ}
    (h : cutoffs.tracePartFullyExpired m = true)
    {segment : TraceSegment τ} (hsegment : segment ∈ m.tenants) :
    cutoffs.isExpired segment.tenant .traces (m.segmentMax segment) = true := by
  rw [tracePartFullyExpired] at h
  split at h
  next => cases h
  next => exact List.all_eq_true.mp h segment hsegment

/-- Every row of a part that has expired as a whole has expired. -/
theorem Cutoffs.isExpired_of_fullyExpired {cutoffs : Cutoffs τ} {signal : Policy.Signal} {m : Meta τ signal}
    {row : Row τ}
    (h : cutoffs.fullyExpired signal m = true) (hcovers : Covers signal m row) :
    cutoffs.isExpired row.tenant signal row.timestampNs = true := by
  cases signal with
  | logs =>
    obtain ⟨segment, hsegment, htenant, hle⟩ := hcovers
    rw [← htenant]
    exact isExpired_of_le hle (List.all_eq_true.mp (Bool.and_eq_true_iff.mp h).2 segment hsegment)
  | traces =>
    obtain ⟨hpart, segment, hsegment, htenant, group, hstart, hend, hbound⟩ := hcovers
    rw [← htenant]
    exact isExpired_of_le (TracePartMeta.le_segmentMax hpart hstart hend hbound) (isExpired_segmentMax h hsegment)
  | metrics =>
    obtain ⟨htenant, hle⟩ := hcovers
    exact isExpired_of_le hle (List.all_eq_true.mp (Bool.and_eq_true_iff.mp h).2 row.tenant htenant)

/-! ## Passes among other work -/

/-- A pass at work: the policies it read, and the directories it is going to delete once it has decided. -/
structure Pass (τ ι : Type) [LinearOrder τ] where
  cutoffs : Cutoffs τ
  dirs : Option (List (DirPath ι)) := none

/-- An instance at work. The ids of parts are new whenever they are given out. -/
structure State (τ ι : Type) [LinearOrder τ] [LinearOrder ι] where
  policy : TenantPolicy τ := {}
  nowNs : Int := 0
  registries : Registries τ ι := fun _ => ∅
  disk : Disk ι := fun _ => none
  pass : Option (Pass τ ι) := none
  used : List ι := []

namespace State

/-- The policies in force. -/
def cutoffs (s : State τ ι) : Cutoffs τ := ⟨s.policy.policies, s.nowNs⟩

/-- A part is written and registered, by a flush or as the output of a merge. -/
def register (s : State τ ι) (signal : Policy.Signal) (id : ι) (part : Part τ signal) : State τ ι :=
  { s with
    registries := Function.update s.registries signal ((s.registries signal).insert id part)
    disk := Function.update s.disk ⟨signal, part.partition, id⟩ (some (partFiles signal))
    used := id :: s.used }

/-- The input of a merge goes. -/
def retire (s : State τ ι) (signal : Policy.Signal) (id : ι) : State τ ι :=
  match (s.registries signal)[id]? with
  | none => s
  | some part =>
    { s with
      registries := Function.update s.registries signal ((s.registries signal).erase id)
      disk := Function.update s.disk ⟨signal, part.partition, id⟩ none }

end State

inductive Action (τ ι : Type) [LinearOrder τ]
  | policy (action : Policy.Action τ)
  | clock (nowNs : Int)
  | register (signal : Policy.Signal) (id : ι) (part : Part τ signal)
  | retire (signal : Policy.Signal) (id : ι)
  | begin
  | decide (batchSize : Nat)
  | delete (faults : Faults ι)

def step (s : State τ ι) : Action τ ι → Option (State τ ι)
  | .policy action => (Policy.step s.policy action).map fun policy => { s with policy }
  | .clock nowNs => some { s with nowNs }
  | .register signal id part => if id ∈ s.used then none else some (s.register signal id part)
  | .retire signal id => some (s.retire signal id)
  | .begin =>
    match s.pass with
    | some _ => none
    | none => some { s with pass := some { cutoffs := s.cutoffs } }
  | .decide batchSize =>
    match s.pass with
    | some ⟨cutoffs, none⟩ =>
      match select cutoffs batchSize s.registries with
      | [] => some { s with pass := none }
      | dirs => some { s with pass := some ⟨cutoffs, some dirs⟩ }
    | _ => none
  | .delete faults =>
    match s.pass with
    | some ⟨_, some dirs⟩ =>
      let (registries, disk, _) := removeExpired faults dirs s.registries s.disk
      some { s with registries, disk, pass := none }
    | _ => none

/-- Whatever the pass takes for expired has expired under the policies in force. -/
def Agrees (s : State τ ι) : Prop :=
  ∀ pass, s.pass = some pass → ∀ tenant signal ts,
    pass.cutoffs.isExpired tenant signal ts = true → s.cutoffs.isExpired tenant signal ts = true

/-- The parts that a pass is going to delete are those it decided on. -/
structure Decided (s : State τ ι) : Prop where
  used : ∀ (signal : Policy.Signal) (id : ι) (part : Part τ signal), (s.registries signal)[id]? = some part →
    id ∈ s.used
  dirs : ∀ cutoffs dirs, s.pass = some ⟨cutoffs, some dirs⟩ → ∀ dir ∈ dirs, dir.id ∈ s.used
  expired : ∀ cutoffs dirs, s.pass = some ⟨cutoffs, some dirs⟩ → ∀ dir ∈ dirs, ∀ part,
    (s.registries dir.signal)[dir.id]? = some part → part.partition = dir.partition →
      cutoffs.fullyExpired dir.signal part.metadata = true

section Runs

variable {s t : State τ ι}

/-- Parts that go, and passes that end, leave it so. -/
theorem Decided.shrink (h : Decided s) (hregistries : ∀ (signal : Policy.Signal) (id : ι) (part : Part τ signal),
    (t.registries signal)[id]? = some part → (s.registries signal)[id]? = some part) (hused : t.used = s.used)
    (hpass : ∀ pass, t.pass = some pass → s.pass = some pass) : Decided t where
  used signal id part hpart := by
    rw [hused]
    exact h.used signal id part (hregistries signal id part hpart)
  dirs cutoffs dirs hdirs dir hdir := by
    rw [hused]
    exact h.dirs cutoffs dirs (hpass _ hdirs) dir hdir
  expired cutoffs dirs hdirs dir hdir part hpart :=
    h.expired cutoffs dirs (hpass _ hdirs) dir hdir part (hregistries _ _ part hpart)

theorem Decided.register (h : Decided s) {signal : Policy.Signal} {id : ι} (hnew : id ∉ s.used) (part : Part τ signal) :
    Decided (s.register signal id part) := by
  have hget (signal' : Policy.Signal) (id' : ι) (hne : id' ≠ id) :
      ((s.register signal id part).registries signal')[id']? = (s.registries signal')[id']? := by
    by_cases heq : signal' = signal
    · subst heq
      dsimp only [State.register]
      rw [Function.update_self, OrdMap.getElem?_insert_of_ne _ _ hne]
    · dsimp only [State.register]
      rw [Function.update_of_ne heq]
  refine ⟨fun signal' id' part' hpart => ?_, fun cutoffs dirs hdirs dir hdir => ?_,
    fun cutoffs dirs hdirs dir hdir part' hpart => ?_⟩
  · by_cases hid : id' = id
    · subst hid
      exact List.mem_cons_self
    · rw [hget signal' id' hid] at hpart
      exact List.mem_cons_of_mem _ (h.used signal' id' part' hpart)
  · exact List.mem_cons_of_mem _ (h.dirs cutoffs dirs hdirs dir hdir)
  · have hne : dir.id ≠ id := by
      rintro heq
      rw [← heq] at hnew
      exact hnew (h.dirs cutoffs dirs hdirs dir hdir)
    rw [hget dir.signal dir.id hne] at hpart
    exact h.expired cutoffs dirs hdirs dir hdir part' hpart

theorem getElem?_retire (s : State τ ι) (signal signal' : Policy.Signal) (id id' : ι) (part : Part τ signal')
    (h : ((s.retire signal id).registries signal')[id']? = some part) : (s.registries signal')[id']? = some part := by
  rw [State.retire] at h
  split at h
  next => exact h
  next =>
    by_cases heq : signal' = signal
    · subst heq
      dsimp only at h
      rw [Function.update_self, OrdMap.getElem?_erase] at h
      split at h
      next => cases h
      next => exact h
    · dsimp only at h
      rwa [Function.update_of_ne heq] at h

theorem mem_select {cutoffs : Cutoffs τ} {batchSize : Nat} {registries : Registries τ ι} {dir : DirPath ι}
    (h : dir ∈ select cutoffs batchSize registries) : ∃ part, (registries dir.signal)[dir.id]? = some part ∧
      part.partition = dir.partition ∧ cutoffs.fullyExpired dir.signal part.metadata = true := by
  obtain ⟨signal, -, hsignal⟩ := List.mem_flatMap.mp h
  obtain ⟨⟨id, part⟩, hm, rfl⟩ := List.mem_map.mp hsignal
  obtain ⟨hentry, hexpired⟩ := List.mem_filter.mp (List.mem_of_mem_take hm)
  exact ⟨part, OrdMap.mem_toList.mp hentry, rfl, hexpired⟩

theorem getElem?_unregister {registries : Registries τ ι} {removed : List (DirPath ι)} {signal : Policy.Signal} {id : ι}
    {part : Part τ signal} (h : (unregister registries removed signal)[id]? = some part) :
    (registries signal)[id]? = some part := by
  rw [unregister, getElem?_foldl_erase] at h
  split at h
  next => cases h
  next => exact h

theorem getElem?_removeExpired {faults : Faults ι} {dirs : List (DirPath ι)} {registries : Registries τ ι}
    {disk : Disk ι}
    {signal : Policy.Signal} {id : ι} {part : Part τ signal}
    (h : ((removeExpired faults dirs registries disk).1 signal)[id]? = some part) :
    (registries signal)[id]? = some part := by
  rw [removeExpired] at h
  split at h
  next => exact h
  next => exact getElem?_unregister h

theorem Decided.step {action : Action τ ι} (h : Decided s) (hstep : step s action = some t) : Decided t := by
  cases action with
  | policy action =>
    obtain ⟨policy, -, rfl⟩ := Option.map_eq_some_iff.mp hstep
    exact ⟨h.used, h.dirs, h.expired⟩
  | clock nowNs =>
    cases hstep
    exact ⟨h.used, h.dirs, h.expired⟩
  | register signal id part =>
    rw [Retention.step] at hstep
    split at hstep
    next => cases hstep
    next hnew =>
      cases hstep
      exact h.register hnew part
  | retire signal id =>
    cases hstep
    have hframe : (s.retire signal id).used = s.used ∧ (s.retire signal id).pass = s.pass := by
      rw [State.retire]
      split <;> exact ⟨rfl, rfl⟩
    refine h.shrink (fun signal' id' part => getElem?_retire s signal signal' id id' part) hframe.1 fun pass hpass => ?_
    rwa [hframe.2] at hpass
  | begin =>
    rw [Retention.step] at hstep
    split at hstep <;> cases hstep
    exact ⟨h.used, fun _ _ hpass => (by cases hpass), fun _ _ hpass => (by cases hpass)⟩
  | decide batchSize =>
    rw [Retention.step] at hstep
    split at hstep
    next =>
      split at hstep
      next =>
        cases hstep
        exact h.shrink (fun _ _ _ hpart => hpart) rfl fun _ hpass => by cases hpass
      next =>
        cases hstep
        refine ⟨h.used, fun cutoffs dirs hdirs dir hdir => ?_, fun cutoffs dirs hdirs dir hdir part hpart _ => ?_⟩
        · cases hdirs
          obtain ⟨part, hpart, -⟩ := mem_select hdir
          exact h.used dir.signal dir.id part hpart
        · cases hdirs
          obtain ⟨part', hpart', -, hexpired⟩ := mem_select hdir
          rw [hpart] at hpart'
          cases hpart'
          exact hexpired
    next => cases hstep
  | delete faults =>
    rw [Retention.step] at hstep
    split at hstep <;> cases hstep
    exact h.shrink (fun _ _ _ hpart => getElem?_removeExpired hpart) rfl fun _ hpass => by cases hpass

theorem decided_start : Decided ({} : State τ ι) where
  used _ _ _ h := by cases h
  dirs _ _ h := by cases h
  expired _ _ h := by cases h

/-- What a pass changes on the disk is directories it decided on, of parts that are registered. -/
theorem removeExpired_of_ne {faults : Faults ι} {dirs : List (DirPath ι)} {registries : Registries τ ι} {disk : Disk ι}
    {dir : DirPath ι} (h : ¬ (dir ∈ dirs ∧ registries.holds dir = true)) :
    (removeExpired faults dirs registries disk).2.1 dir = disk dir := by
  have hdir : (removeDirs faults registries dirs disk).1 dir = disk dir := removeDirs_of_ne h
  rw [removeExpired]
  split
  next heq =>
    rw [heq] at hdir
    exact hdir
  next heq =>
    rw [heq] at hdir
    exact hdir

/-- **Only what has expired is deleted.** In every run of passes, policy changes, flushes, merges and the clock: where
all that a pass took for expired has expired under the policies in force when it deletes, every directory it touches is
that of a registered part whose rows have all expired under those policies. -/
theorem deletes_only_expired (h : Steps.Reach step (fun _ _ => True) {} s) {faults : Faults ι}
    (hstep : step s (.delete faults) = some t) (hagrees : Agrees s) {dir : DirPath ι}
    (hdeleted : t.disk dir ≠ s.disk dir) :
    ∃ part, (s.registries dir.signal)[dir.id]? = some part ∧ part.partition = dir.partition ∧
      ∀ row ∈ part.rows, s.cutoffs.isExpired row.tenant dir.signal row.timestampNs = true := by
  have hdecided := h.invariant decided_start fun _ _ _ hs _ hstep => hs.step hstep
  rw [step] at hstep
  split at hstep <;> cases hstep
  next cutoffs dirs hpass =>
    have hheld : dir ∈ dirs ∧ s.registries.holds dir = true := by
      by_contra hnot
      exact hdeleted (removeExpired_of_ne hnot)
    obtain ⟨part, hpart, hpartition⟩ := Steps.exists_of_any hheld.2
    refine ⟨part, hpart, of_decide_eq_true hpartition, fun row hrow => ?_⟩
    have hexpired := hdecided.expired cutoffs dirs hpass dir hheld.1 part hpart (of_decide_eq_true hpartition)
    exact hagrees _ hpass _ _ _ (Cutoffs.isExpired_of_fullyExpired hexpired (part.covered row hrow))

/-- A pass that has just begun agrees with the policies in force. -/
theorem agrees_of_begin (hstep : step s .begin = some t) : Agrees t := by
  rw [step] at hstep
  split at hstep <;> cases hstep
  rintro pass ⟨rfl⟩ tenant signal ts hexpired
  exact hexpired

theorem Agrees.decide {batchSize : Nat} (h : Agrees s) (hstep : step s (.decide batchSize) = some t) : Agrees t := by
  rw [step] at hstep
  split at hstep
  next cutoffs hpass =>
    split at hstep <;> cases hstep
    · intro pass hnone
      cases hnone
    · rintro pass ⟨rfl⟩
      exact h ⟨cutoffs, none⟩ hpass
  next => cases hstep

end Runs

/-! ### A retention that is lengthened while a pass waits -/

section Cases

def noFaults : Faults Nat := ⟨fun _ => false, fun _ => none, fun _ => false⟩

/-- Tenant 0 keeps its data for so long. -/
def keep (revision : Nat) (retention : String) : Action Nat Nat :=
  .policy (.push 0 ⟨revision, retention.toList, none, {}, false⟩ 7 Policy.healthy)

theorem deletes_only_expired_millisecond : ∃ s t : State Nat Nat, Steps.Reach step (fun _ _ => True) {} s ∧
    step s (.delete noFaults) = some t ∧ t.disk (smallDir 0) = none ∧
      ∃ part, (s.registries .logs)[0]? = some part ∧
        ∀ row ∈ part.rows, s.cutoffs.isExpired row.tenant .logs row.timestampNs = true := by
  have hrun : ∃ s : State Nat Nat, Steps.Reach step (fun _ _ => True) {} s ∧ ((step s .begin).any fun s =>
      (step s (.decide 1)).any fun s =>
        (s.disk (smallDir 0)).isSome && (step s (.delete noFaults)).any fun t => t.disk (smallDir 0) = none) = true :=
    Steps.exists_reach [.register .logs 0 smallPart, keep 1 "1ms", .clock 2000000] (by decide +kernel)
  obtain ⟨s, hs, hbegins⟩ := hrun
  obtain ⟨s₁, hbegin, hdecides⟩ := Steps.exists_of_any hbegins
  obtain ⟨s', hdecide, hdeletes⟩ := Steps.exists_of_any hdecides
  rw [Bool.and_eq_true] at hdeletes
  obtain ⟨t, hdelete, hgone⟩ := Steps.exists_of_any hdeletes.2
  have hdeleted : t.disk (smallDir 0) ≠ s'.disk (smallDir 0) := by
    intro heq
    rw [← heq, of_decide_eq_true hgone] at hdeletes
    cases hdeletes.1
  have hs' := (hs.step .begin trivial hbegin).step (.decide 1) trivial hdecide
  have hagrees := (agrees_of_begin hbegin).decide hdecide
  obtain ⟨part, hpart, -, hrows⟩ := deletes_only_expired hs' hdelete hagrees hdeleted
  exact ⟨s', t, hs', hdelete, of_decide_eq_true hgone, part, hpart, hrows⟩

/-- **Data of a tenant that keeps everything.** A pass decides on a part of a tenant that keeps its data for a
millisecond. Before it gets its locks the tenant's retention becomes infinite. The pass still deletes the part. -/
theorem deletes_retained : ∃ s t : State Nat Nat, Steps.Reach step (fun _ _ => True) {} s ∧
    step s (.delete noFaults) = some t ∧ s.policy.policies[0]?.any (·.retention = .infinite) = true ∧
      s.disk (smallDir 0) = some (partFiles .logs) ∧ t.disk (smallDir 0) = none ∧
      (s.registries .logs)[0]?.any (fun part => part.rows.any fun row =>
        !s.cutoffs.isExpired row.tenant .logs row.timestampNs) = true := by
  have hrun : ∃ s : State Nat Nat, Steps.Reach step (fun _ _ => True) {} s ∧
      ((step s (.delete noFaults)).any fun t => s.policy.policies[0]?.any (·.retention = .infinite) &&
        s.disk (smallDir 0) = some (partFiles .logs) && t.disk (smallDir 0) = none &&
        (s.registries .logs)[0]?.any fun part => part.rows.any fun row =>
          !s.cutoffs.isExpired row.tenant .logs row.timestampNs) = true :=
    Steps.exists_reach [.register .logs 0 smallPart, keep 1 "1ms", .clock 2000000, .begin, .decide 1, keep 2 "infinite"]
      (by decide +kernel)
  obtain ⟨s, hs, hdeletes⟩ := hrun
  obtain ⟨t, hdelete, hp⟩ := Steps.exists_of_any hdeletes
  simp only [Bool.and_eq_true, decide_eq_true_iff] at hp
  exact ⟨s, t, hs, hdelete, hp.1.1.1, hp.1.1.2, hp.1.2, hp.2⟩

end Cases

end Signy.Retention
