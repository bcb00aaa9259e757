/-
A merge pass over the log parts (signy/src/merge): which parts are rewritten together and why, and what becomes of the
rows that a delete request hides.

A pass takes the registered parts, the cutoffs of retention and the delete masks as they are when it starts. Around each
group retention can retire parts and the process can begin to drain; what a flush adds meanwhile no pass looks at.
Reading, writing and publishing do not fail. The hash map of partitions gives them in some order. Whether the expired
share of a part reaches the threshold is a test of the two counts; the division is one of floats.
-/
import Fn0.Lib.KMerge
import Fn0.Signy.CompactionTier
import Fn0.Signy.DeleteRequests
import Fn0.Signy.Retention

namespace Signy.Merge

open Retention (Cutoffs)

/-! ## Parts -/

structure StoredRow where
  tenant : String
  entry : LogEntry
deriving DecidableEq

/-- The rows of a tenant in a part. -/
structure Segment extends TenantSegment where
  rowCount : Nat

structure Meta where
  id : String
  partition : String
  rowCount : Nat
  materializedBytes : UInt64
  maxTsNs : Int
  tenants : List Segment

/-- A registered part. What `meta.json` says of its tenants covers its rows. -/
structure Reader where
  metadata : Meta
  rows : List StoredRow
  covered : ∀ row ∈ rows, ∃ segment ∈ metadata.tenants, segment.tenant = row.tenant ∧
    segment.minTsNs ≤ row.entry.timestampNs ∧ row.entry.timestampNs ≤ segment.maxTsNs

def Reader.id (reader : Reader) : String := reader.metadata.id

/-! ## Masks and cutoffs -/

def hidesRow (masks : List CompiledRequest) (row : StoredRow) : Bool :=
  masks.any fun compiled => compiled.request.tenant = row.tenant &&
    compiled.covers row.entry.structuredMetadata row.entry.timestampNs row.entry.line

def mayCoverPart (masks : List CompiledRequest) (m : Meta) : Bool :=
  masks.any fun compiled => compiled.mayBeHeldBy ⟨m.tenants.map Segment.toTenantSegment⟩

def expiredLogRows (cutoffs : Cutoffs String) (m : Meta) : Nat :=
  ((m.tenants.filter fun segment => cutoffs.isExpired segment.tenant .logs segment.maxTsNs).map Segment.rowCount).sum

def isZeroRetention (cutoffs : Cutoffs String) (tenant : String) : Bool :=
  (cutoffs.policies[tenant]?).any fun entry => entry.retentionFor .logs = .finite 0

def holdsZeroRetentionRows (cutoffs : Cutoffs String) (m : Meta) : Bool :=
  m.tenants.any fun segment => segment.rowCount > 0 && isZeroRetention cutoffs segment.tenant

/-! ## Groups -/

structure Config where
  mergeMinPartCount : Nat
  mergeTargetPartRows : Nat
  mergeMaxPartRows : Nat
  mergeMaxInputBytes : Nat
  mergeMaxMemoryBytes : Nat
  mergeMaxGroupsPerTick : Nat
  /-- Whether so many expired rows of so many rows reach `retention_rewrite_threshold`. -/
  reachesThreshold : Nat → Nat → Bool

def minStreamPageBytes : Nat := 2 * 1024 * 1024

def mergePagingBudget (mergeMaxMemoryBytes : Nat) : Nat := max (mergeMaxMemoryBytes / 2) minStreamPageBytes

/-- `u64::saturating_add` -/
def saturatingAdd (a b : Nat) : Nat := min (a + b) 18446744073709551615

structure MergeGroup where
  parts : List Reader
  retentionOnly : Bool

section Selection

variable (config : Config)

def minPartCount : Nat := max config.mergeMinPartCount 2

def maxGroupParts : Nat :=
  max (mergePagingBudget config.mergeMaxMemoryBytes / minStreamPageBytes) (minPartCount config)

def estimatedPartBytes (reader : Reader) : Nat := reader.metadata.materializedBytes.toNat

/-- The group so far is closed before this part. -/
def closesBefore (current : List Reader) (rows bytes : Nat) (reader : Reader) : Bool :=
  (minPartCount config ≤ current.length && config.mergeMaxInputBytes < saturatingAdd bytes
    (estimatedPartBytes reader)) ||
    (!current.isEmpty && config.mergeMaxPartRows < saturatingAdd rows reader.metadata.rowCount)

/-- The group so far is closed with the part that it got last. -/
def closesAfter (current : List Reader) (rows : Nat) : Bool :=
  maxGroupParts config ≤ current.length ||
    (minPartCount config ≤ current.length && config.mergeTargetPartRows ≤ rows)

/-- The loop over the parts of a tier, with the group so far and its rows and bytes. -/
def groupFrom (current : List Reader) (rows bytes : Nat) : List Reader → List (List Reader)
  | [] => if current.isEmpty then [] else [current]
  | reader :: parts =>
    let closed := closesBefore config current rows bytes reader
    let before := if closed then [] else current
    let grown := before ++ [reader]
    let grownRows := saturatingAdd (if closed then 0 else rows) reader.metadata.rowCount
    let grownBytes := saturatingAdd (if closed then 0 else bytes) (estimatedPartBytes reader)
    let rest := if closesAfter config grown grownRows then grown :: groupFrom [] 0 0 parts
      else groupFrom grown grownRows grownBytes parts
    if closed then current :: rest else rest

def groupWithinTier (parts : List Reader) : List (List Reader) := groupFrom config [] 0 0 parts

def tierOf (reader : Reader) : Nat := Tier.tierOf reader.metadata.materializedBytes

/-- Groups within one size tier, the tiers in their order. -/
def groupForMerge (parts : List Reader) : List (List Reader) :=
  let small := parts.filter fun reader => reader.metadata.rowCount < config.mergeMaxPartRows
  let tiers := ((small.map tierOf).dedup).insertionSort (· ≤ ·)
  tiers.flatMap fun tier => groupWithinTier config (small.filter fun reader => tierOf reader = tier)

variable (cutoffs : Option (Cutoffs String)) (masks : List CompiledRequest)

def needsRewrite (reader : Reader) : Bool :=
  mayCoverPart masks reader.metadata || cutoffs.any fun cutoffs =>
    holdsZeroRetentionRows cutoffs reader.metadata ||
      config.reachesThreshold (expiredLogRows cutoffs reader.metadata) reader.metadata.rowCount

/-- A group that nothing but age would let in is let in by it. -/
def ageAdmits (nowNs : Int) (parts group : List Reader) : Bool :=
  (parts.all fun reader => reader.metadata.maxTsNs < max Retention.minI64 (nowNs - Tier.idlePartitionAge)) &&
    2 ≤ group.length

/-- The groups that are merged for their size or their age, or because a part of them needs it. -/
def admitted (nowNs : Int) (parts : List Reader) : List MergeGroup :=
  (groupForMerge config parts).filterMap fun group =>
    let small := group.length < minPartCount config && !ageAdmits nowNs parts group
    if small && !group.any (needsRewrite config cutoffs masks) then none else some ⟨group, small⟩

def selectGroups (nowNs : Int) (parts : List Reader) : List MergeGroup :=
  let selected := admitted config cutoffs masks nowNs parts
  let grouped := selected.flatMap fun group => group.parts.map Reader.id
  selected ++ (parts.filter fun reader => needsRewrite config cutoffs masks reader && reader.id ∉ grouped).map
    fun reader => ⟨[reader], true⟩

/-- The groups of a pass, partition by partition. -/
def passGroups (nowNs : Int) (order : List String) (registered : List Reader) : List MergeGroup :=
  order.flatMap fun partition => selectGroups config cutoffs masks nowNs
    ((registered.filter fun reader => reader.metadata.partition = partition).insertionSort
      fun a b => a.metadata.rowCount ≤ b.metadata.rowCount)

end Selection

/-! ## The pass -/

/-- The order of rows in a part. -/
def sortKey (row : StoredRow) : String ×ₗ Int ×ₗ String ×ₗ List (String ×ₗ String) :=
  toLex (row.tenant, toLex (row.entry.timestampNs, toLex (row.entry.line, row.entry.structuredMetadata.map toLex)))

/-- The rows of several parts in order, each once. -/
def mergedRows (readers : List Reader) : List StoredRow :=
  KMerge.dedup (KMerge.merge (fun a b => sortKey a ≤ sortKey b) (readers.map Reader.rows))

section Pass

variable (cutoffs : Option (Cutoffs String)) (masks : List CompiledRequest)

def keep (row : StoredRow) : Bool :=
  !(cutoffs.any fun cutoffs => cutoffs.isExpired row.tenant .logs row.entry.timestampNs) && !hidesRow masks row

/-- What happens around a group: the process drains, retention retires parts before the commit. -/
structure Turn where
  draining : Bool
  retired : List String
  /-- The id of the part that is written. -/
  output : String

/-- The parts that are registered when a group is committed. -/
def registeredAt (registered : List Reader) (turn : Turn) : List Reader :=
  registered.filter fun reader => reader.id ∉ turn.retired

/-- A group for retention alone is left when no tenant of it has expired. -/
def skipped (group : MergeGroup) : Bool :=
  group.retentionOnly && cutoffs.any fun cutoffs => group.parts.all fun reader =>
    expiredLogRows cutoffs reader.metadata = 0

/-- The writer of parts: a part with these rows, in some partition. -/
structure Writer where
  write : String → List StoredRow → Reader
  rows_write : ∀ id rows, (write id rows).rows = rows

/-- One group of a pass that goes on. -/
def mergeGroup (writer : Writer) (registered : List Reader) (group : MergeGroup) (turn : Turn) : List Reader :=
  let registered := registeredAt registered turn
  let rows := mergedRows group.parts
  let kept := rows.filter (keep cutoffs masks)
  if skipped cutoffs group then registered
  -- An input that is gone: the rewrite found it missing, or the commit did.
  else if group.parts.any fun reader => reader.id ∉ registered.map Reader.id then registered
  else if kept.length = 0 then registered
  else if rows.length = kept.length && group.retentionOnly then registered
  else registered.filter (fun reader => reader.id ∉ group.parts.map Reader.id) ++ [writer.write turn.output kept]

/-- The groups one after the other, until the process drains. -/
def mergeGroups (writer : Writer) : List Reader → List (MergeGroup × Turn) → List Reader
  | registered, [] => registered
  | registered, (group, turn) :: rest =>
    if turn.draining then registeredAt registered turn
    else mergeGroups writer (mergeGroup cutoffs masks writer registered group turn) rest

/-- A pass over the registered parts, with a turn for each of the groups that its budget lets it take. -/
def mergeOnce (config : Config) (writer : Writer) (nowNs : Int) (order : List String) (registered : List Reader)
    (turns : List Turn) : List Reader :=
  mergeGroups cutoffs masks writer registered
    (((passGroups config cutoffs masks nowNs order registered).take config.mergeMaxGroupsPerTick).zip turns)

end Pass

/-! ## Every part with hidden rows is selected -/

/-- A part holds a row that the masks hide. -/
def holdsHidden (masks : List CompiledRequest) (reader : Reader) : Bool := reader.rows.any (hidesRow masks)

theorem covers_between {compiled : CompiledRequest} {metadata : List (String × String)} {timestampNs : Int}
    {line : String}
    (h : compiled.covers metadata timestampNs line = true) :
    compiled.request.startNs ≤ timestampNs ∧ timestampNs < compiled.request.endNs := by
  rw [CompiledRequest.covers] at h
  split at h
  · cases h
  next hbetween => omega

theorem mayCoverPart_of_holdsHidden {masks : List CompiledRequest} {reader : Reader}
    (h : holdsHidden masks reader = true) :
    mayCoverPart masks reader.metadata = true := by
  obtain ⟨row, hrow, hhides⟩ := List.any_eq_true.mp h
  obtain ⟨compiled, hcompiled, hcovers⟩ := List.any_eq_true.mp hhides
  simp only [Bool.and_eq_true, decide_eq_true_eq] at hcovers
  have hbetween := covers_between hcovers.2
  obtain ⟨segment, hsegment, htenant, hmin, hmax⟩ := reader.covered row hrow
  refine List.any_eq_true.mpr ⟨compiled, hcompiled, ?_⟩
  refine List.any_eq_true.mpr ⟨segment.toTenantSegment, List.mem_map_of_mem hsegment, ?_⟩
  simp only [decide_eq_true_eq]
  exact ⟨htenant.trans hcovers.1.symm, by omega, by omega⟩

section Selection

variable {config : Config} {cutoffs : Option (Cutoffs String)} {masks : List CompiledRequest}

/-- The groups of a tier are its parts, cut. -/
theorem groupFrom_flatten (current : List Reader) (rows bytes : Nat) (parts : List Reader) :
    (groupFrom config current rows bytes parts).flatten = current ++ parts := by
  induction parts generalizing current rows bytes with
  | nil =>
    rw [groupFrom]
    split
    next hempty => rw [List.isEmpty_iff.mp hempty]; rfl
    · simp
  | cons reader parts ih =>
    rw [groupFrom]
    split <;> split <;> simp_all

theorem mem_groupForMerge {parts group : List Reader} (h : group ∈ groupForMerge config parts) {reader : Reader}
    (hreader : reader ∈ group) : reader ∈ parts := by
  obtain ⟨tier, -, hgroup⟩ := List.mem_flatMap.mp h
  have hmem : reader ∈ (groupFrom config [] 0 0 _).flatten := List.mem_flatten.mpr ⟨group, hgroup, hreader⟩
  rw [groupFrom_flatten, List.nil_append] at hmem
  exact List.mem_of_mem_filter (List.mem_of_mem_filter hmem)

theorem mem_admitted {nowNs : Int} {parts : List Reader} {group : MergeGroup}
    (h : group ∈ admitted config cutoffs masks nowNs parts) {reader : Reader} (hreader : reader ∈ group.parts) :
    reader ∈ parts := by
  obtain ⟨members, hmembers, hgroup⟩ := List.mem_filterMap.mp h
  dsimp only at hgroup
  split at hgroup
  · cases hgroup
  · cases hgroup
    exact mem_groupForMerge hmembers hreader

theorem exists_selected (nowNs : Int) {parts : List Reader} (hids : (parts.map Reader.id).Nodup) {reader : Reader}
    (hreader : reader ∈ parts) (hneeds : needsRewrite config cutoffs masks reader = true) :
    ∃ group ∈ selectGroups config cutoffs masks nowNs parts, reader ∈ group.parts := by
  rw [selectGroups]
  by_cases hgrouped : reader.id ∈ (admitted config cutoffs masks nowNs parts).flatMap fun group =>
    group.parts.map Reader.id
  · obtain ⟨group, hgroup, hid⟩ := List.mem_flatMap.mp hgrouped
    obtain ⟨other, hother, heq⟩ := List.mem_map.mp hid
    obtain rfl := List.inj_on_of_nodup_map hids (mem_admitted hgroup hother) hreader heq
    exact ⟨group, List.mem_append_left _ hgroup, hother⟩
  · refine ⟨⟨[reader], true⟩, List.mem_append_right _ (List.mem_map.mpr ⟨reader, ?_, rfl⟩), List.mem_singleton_self _⟩
    exact List.mem_filter.mpr ⟨hreader, by simp [hneeds, hgrouped]⟩

theorem exists_passGroup {nowNs : Int} {order : List String} {registered : List Reader}
    (hids : (registered.map Reader.id).Nodup) {reader : Reader} (hreader : reader ∈ registered)
    (horder : reader.metadata.partition ∈ order) (hhidden : holdsHidden masks reader = true) :
    ∃ group ∈ passGroups config cutoffs masks nowNs order registered, reader ∈ group.parts := by
  set parts := (registered.filter fun other => other.metadata.partition = reader.metadata.partition).insertionSort
    fun a b => a.metadata.rowCount ≤ b.metadata.rowCount with hparts
  have hperm : parts.Perm (registered.filter fun other => other.metadata.partition = reader.metadata.partition) :=
    List.perm_insertionSort _ _
  have hnodup : (parts.map Reader.id).Nodup :=
    (hperm.map _).nodup_iff.mpr (hids.sublist (List.filter_sublist.map _))
  have hmem : reader ∈ parts := hperm.mem_iff.mpr (List.mem_filter.mpr ⟨hreader, by simp⟩)
  have hneeds : needsRewrite config cutoffs masks reader = true := by
    rw [needsRewrite, mayCoverPart_of_holdsHidden hhidden, Bool.true_or]
  obtain ⟨group, hgroup, hin⟩ := exists_selected nowNs hnodup hmem hneeds
  exact ⟨group, List.mem_flatMap.mpr ⟨_, horder, hgroup⟩, hin⟩

end Selection

/-! ## A group -/

theorem mem_mergedRows {readers : List Reader} {row : StoredRow} :
    row ∈ mergedRows readers ↔ ∃ reader ∈ readers, row ∈ reader.rows := by
  rw [mergedRows, KMerge.mem_dedup, (KMerge.merge_perm _ _).mem_iff, List.mem_flatten]
  simp

section Pass

variable {cutoffs : Option (Cutoffs String)} {masks : List CompiledRequest} {writer : Writer}

/-- A part of the group that is still registered holds a hidden row. -/
def Owes (masks : List CompiledRequest) (registered : List Reader) (group : MergeGroup) (turn : Turn) : Prop :=
  ∃ reader ∈ group.parts, reader ∈ registeredAt registered turn ∧ holdsHidden masks reader = true

/-- The group is not left for want of expired tenants, all of its parts are still registered, and it has a row to
keep. -/
structure Committed (cutoffs : Option (Cutoffs String)) (masks : List CompiledRequest) (registered : List Reader)
    (group : MergeGroup) (turn : Turn) : Prop where
  taken : skipped cutoffs group = false
  present : ∀ reader ∈ group.parts, reader.id ∈ (registeredAt registered turn).map Reader.id
  keeps : ∃ row ∈ mergedRows group.parts, keep cutoffs masks row = true

theorem not_hides_of_keep {row : StoredRow} (h : keep cutoffs masks row = true) : hidesRow masks row = false := by
  simp only [keep, Bool.and_eq_true, Bool.not_eq_true'] at h
  exact h.2

theorem not_holdsHidden_write {id : String} {rows : List StoredRow} :
    holdsHidden masks (writer.write id (rows.filter (keep cutoffs masks))) = false := by
  rw [holdsHidden, writer.rows_write, List.any_eq_false]
  intro row hrow
  rw [not_hides_of_keep (List.mem_filter.mp hrow).2]
  exact Bool.false_ne_true

/-- A hidden row of the group is dropped. -/
theorem kept_lt (cutoffs : Option (Cutoffs String)) {group : MergeGroup} {reader : Reader}
    (hreader : reader ∈ group.parts)
    (hhidden : holdsHidden masks reader = true) :
    ((mergedRows group.parts).filter (keep cutoffs masks)).length < (mergedRows group.parts).length := by
  obtain ⟨row, hrow, hhides⟩ := List.any_eq_true.mp hhidden
  refine List.length_filter_lt_length_iff_exists.mpr ⟨row, mem_mergedRows.mpr ⟨reader, hreader, hrow⟩, fun hkeep => ?_⟩
  rw [not_hides_of_keep hkeep] at hhides
  cases hhides

/-- What a group leaves registered: what there was, or that without its parts and with the part written instead. -/
theorem mergeGroup_cases (cutoffs : Option (Cutoffs String)) (masks : List CompiledRequest) (writer : Writer)
    (registered : List Reader) (group : MergeGroup) (turn : Turn) :
    mergeGroup cutoffs masks writer registered group turn = registeredAt registered turn ∧
        (Committed cutoffs masks registered group turn →
          ((mergedRows group.parts).filter (keep cutoffs masks)).length = (mergedRows group.parts).length) ∨
      mergeGroup cutoffs masks writer registered group turn =
        (registeredAt registered turn).filter (fun reader => reader.id ∉ group.parts.map Reader.id) ++
          [writer.write turn.output ((mergedRows group.parts).filter (keep cutoffs masks))] ∧
        Committed cutoffs masks registered group turn := by
  rw [mergeGroup]
  split
  next hskip => exact .inl ⟨rfl, fun h => absurd h.taken (by simp [hskip])⟩
  next hskip =>
  split
  next hgone =>
    refine .inl ⟨rfl, fun h => ?_⟩
    obtain ⟨reader, hreader, hgone⟩ := List.any_eq_true.mp hgone
    exact absurd (h.present reader hreader) (of_decide_eq_true hgone)
  next hpresent =>
  split
  next hempty =>
    refine .inl ⟨rfl, fun h => ?_⟩
    obtain ⟨row, hrow, hkeep⟩ := h.keeps
    have hmem := List.mem_filter.mpr ⟨hrow, hkeep⟩
    rw [List.length_eq_zero_iff.mp hempty] at hmem
    cases hmem
  next hkept =>
  split
  next hsame =>
    refine .inl ⟨rfl, fun _ => ?_⟩
    simp only [Bool.and_eq_true, decide_eq_true_eq] at hsame
    exact hsame.1.symm
  next =>
    refine .inr ⟨rfl, eq_false_of_ne_true hskip, fun reader hreader => ?_, ?_⟩
    · by_contra hgone
      exact hpresent (List.any_eq_true.mpr ⟨reader, hreader, decide_eq_true hgone⟩)
    · obtain ⟨row, hrow⟩ := List.exists_mem_of_length_pos (Nat.pos_of_ne_zero hkept)
      exact ⟨row, (List.mem_filter.mp hrow).1, (List.mem_filter.mp hrow).2⟩

/-- **A group applies the deletes** to its registered parts exactly when none of them holds a hidden row, or it is
committed. -/
theorem mergeGroup_applies_iff (registered : List Reader) (group : MergeGroup) (turn : Turn) :
    (∀ reader ∈ group.parts, reader ∈ mergeGroup cutoffs masks writer registered group turn →
      holdsHidden masks reader = false) ↔
        (Owes masks registered group turn → Committed cutoffs masks registered group turn) := by
  rcases mergeGroup_cases cutoffs masks writer registered group turn with
    ⟨heq, hkept⟩ | ⟨heq, hcommitted⟩
  · rw [heq]
    constructor
    · rintro h ⟨reader, hreader, hregistered, hhidden⟩
      rw [h reader hreader hregistered] at hhidden
      cases hhidden
    · intro h reader hreader hregistered
      by_contra hhidden
      have hhidden := eq_true_of_ne_false hhidden
      have hlt := kept_lt cutoffs hreader hhidden
      have hsame := hkept (h ⟨reader, hreader, hregistered, hhidden⟩)
      omega
  · rw [heq]
    refine iff_of_true (fun reader hreader hmem => ?_) fun _ => hcommitted
    rcases List.mem_append.mp hmem with hmem | hmem
    · have hid := of_decide_eq_true (List.mem_filter.mp hmem).2
      exact absurd (List.mem_map_of_mem hreader) hid
    · rw [List.mem_singleton.mp hmem]
      exact not_holdsHidden_write

/-- Each group of a run applies the deletes to its parts, and the process does not drain before a part with a hidden row
is dealt with. -/
def AppliesAll (cutoffs : Option (Cutoffs String)) (masks : List CompiledRequest) (writer : Writer) :
    List Reader → List (MergeGroup × Turn) → Prop
  | _, [] => True
  | registered, (group, turn) :: rest =>
    if turn.draining then ∀ reader ∈ registeredAt registered turn, holdsHidden masks reader = false
    else (Owes masks registered group turn → Committed cutoffs masks registered group turn) ∧
      AppliesAll cutoffs masks writer (mergeGroup cutoffs masks writer registered group turn) rest

/-- A part with a hidden row was registered before the group. -/
theorem mem_of_mem_mergeGroup {registered : List Reader} {group : MergeGroup} {turn : Turn} {reader : Reader}
    (h : reader ∈ mergeGroup cutoffs masks writer registered group turn) (hhidden : holdsHidden masks reader = true) :
    reader ∈ registered := by
  rcases mergeGroup_cases cutoffs masks writer registered group turn with ⟨heq, -⟩ | ⟨heq, -⟩
  · rw [heq] at h
    exact List.mem_of_mem_filter h
  · rw [heq] at h
    rcases List.mem_append.mp h with h | h
    · exact List.mem_of_mem_filter (List.mem_of_mem_filter h)
    · rw [List.mem_singleton.mp h, not_holdsHidden_write] at hhidden
      cases hhidden

theorem mergeGroups_applies {registered : List Reader} {groups : List (MergeGroup × Turn)}
    (happlies : AppliesAll cutoffs masks writer registered groups)
    (hselected : ∀ reader ∈ registered, holdsHidden masks reader = true → ∃ group ∈ groups, reader ∈ group.1.parts) :
    ∀ reader ∈ mergeGroups cutoffs masks writer registered groups, holdsHidden masks reader = false := by
  -- The parts with hidden rows are those of the groups that are still to come.
  induction groups generalizing registered with
  | nil =>
    intro reader hreader
    by_contra hhidden
    obtain ⟨group, hgroup, -⟩ := hselected reader hreader (eq_true_of_ne_false hhidden)
    cases hgroup
  | cons entry rest ih =>
    obtain ⟨group, turn⟩ := entry
    rw [AppliesAll] at happlies
    rw [mergeGroups]
    split at happlies
    next hdraining => rwa [if_pos hdraining]
    next hdraining =>
      obtain ⟨hcommitted, hrest⟩ := happlies
      rw [if_neg hdraining]
      refine ih hrest fun reader hreader hhidden => ?_
      obtain ⟨other, hother, hin⟩ := hselected reader (mem_of_mem_mergeGroup hreader hhidden) hhidden
      rcases List.mem_cons.mp hother with rfl | hother
      · have happlied := (mergeGroup_applies_iff registered group turn).mpr hcommitted reader hin hreader
        rw [happlied] at hhidden
        cases hhidden
      · exact ⟨other, hother, hin⟩

/-- **A pass applies the deletes.** A pass whose budget lets it take every group leaves no registered part with a hidden
row when it commits each group that has a hidden row in a registered part, and does not drain while there is such a
part. A group that is not committed leaves such a part. -/
theorem deletes_applied :
    (∀ {config : Config} {nowNs : Int} {order : List String} {registered : List Reader} {turns : List Turn},
      (registered.map Reader.id).Nodup → (∀ reader ∈ registered, reader.metadata.partition ∈ order) →
      (passGroups config cutoffs masks nowNs order registered).length ≤ config.mergeMaxGroupsPerTick →
      turns.length = (passGroups config cutoffs masks nowNs order registered).length →
      AppliesAll cutoffs masks writer registered ((passGroups config cutoffs masks nowNs order registered).zip turns) →
      ∀ reader ∈ mergeOnce cutoffs masks config writer nowNs order registered turns, ∀ row ∈ reader.rows,
        hidesRow masks row = false) ∧
    ∀ (present : List Reader) (group : MergeGroup) (turn : Turn),
      (∀ reader ∈ group.parts, reader ∈ mergeGroup cutoffs masks writer present group turn →
        ∀ row ∈ reader.rows, hidesRow masks row = false) ↔
          (Owes masks present group turn → Committed cutoffs masks present group turn) := by
  have hrows (reader : Reader) : holdsHidden masks reader = false ↔ ∀ row ∈ reader.rows,
    hidesRow masks row = false := by
    simp [holdsHidden]
  refine ⟨fun {config nowNs order registered turns} hids horder hbudget hturns happlies reader hreader =>
    (hrows reader).mp ?_, fun present group turn => ?_⟩
  · rw [mergeOnce, List.take_of_length_le hbudget] at hreader
    refine mergeGroups_applies happlies (fun other hother hhidden => ?_) reader hreader
    obtain ⟨group, hgroup, hin⟩ : ∃ group ∈ passGroups config cutoffs masks nowNs order registered,
      other ∈ group.parts :=
      exists_passGroup hids hother (horder other hother) hhidden
    obtain ⟨i, hi, rfl⟩ := List.mem_iff_getElem.mp hgroup
    have hlt : i < ((passGroups config cutoffs masks nowNs order registered).zip turns).length := by
      rw [List.length_zip]
      omega
    exact ⟨_, List.getElem_mem hlt, by simpa using hin⟩
  · exact Iff.trans (forall₂_congr fun reader _ => imp_congr_right fun _ => (hrows reader).symm)
      (mergeGroup_applies_iff present group turn)

end Pass

/-- A writer that lists each row as a segment of its own. -/
def rowWriter : Writer where
  write id rows :=
    { metadata := ⟨id, "2026-01-01", rows.length, 0, 0, rows.map fun row =>
        ⟨⟨row.tenant, row.entry.timestampNs, row.entry.timestampNs⟩, 1⟩⟩
      rows := rows
      covered := fun _ hrow => ⟨_, List.mem_map_of_mem hrow, rfl, le_rfl, le_rfl⟩ }
  rows_write _ _ := rfl

def defaultConfig : Config :=
  ⟨4, 1000000, 4000000, 536870912, 1073741824, 16, fun expired rows => rows ≤ 2 * expired ∧ 0 < rows⟩

/-- The first second of a tenant. -/
def firstSecond : CompiledRequest := ⟨⟨7, "acme", "", 0, 1000000000, 0, .received⟩, ⟨[], [], []⟩⟩

def earlyRow : StoredRow := ⟨"acme", ⟨5, "early", []⟩⟩

def lateRow : StoredRow := ⟨"acme", ⟨2000000000, "late", []⟩⟩

def sample : Reader := rowWriter.write "a" [earlyRow, lateRow]

theorem deletes_applied_sample :
    passGroups defaultConfig none [firstSecond] 3000000000 ["2026-01-01"] [sample] = [⟨[sample], true⟩] ∧
    ∀ reader ∈ mergeOnce none [firstSecond] defaultConfig rowWriter 3000000000 ["2026-01-01"] [sample] [⟨false,
      [], "b"⟩],
      ∀ row ∈ reader.rows, hidesRow [firstSecond] row = false := by
  have hgroups : passGroups defaultConfig none [firstSecond] 3000000000 ["2026-01-01"]
    [sample] = [⟨[sample], true⟩] := by
    rfl
  refine ⟨hgroups, deletes_applied.1 (by simp) ?_ ?_ ?_ ?_⟩
  · intro reader hreader
    rw [List.mem_singleton.mp hreader]
    decide
  · rw [hgroups]
    decide
  · rw [hgroups]
    rfl
  · rw [hgroups]
    refine ⟨fun _ => ⟨rfl, ?_, lateRow, ?_, ?_⟩, trivial⟩
    · decide +kernel
    · exact mem_mergedRows.mpr ⟨sample, by simp, by decide +kernel⟩
    · decide +kernel

/-- The hidden row stays when retention is on and no tenant of the part has expired, and when the part has no other
row. -/
theorem deletes_left :
    ((mergeOnce (some ⟨∅, 3000000000⟩) [firstSecond] defaultConfig rowWriter 3000000000 ["2026-01-01"] [sample]
        [⟨false, [], "b"⟩]).any fun reader => reader.id = "a" && reader.rows.any (hidesRow [firstSecond])) = true ∧
    ((mergeOnce none [firstSecond] defaultConfig rowWriter 3000000000 ["2026-01-01"] [rowWriter.write "c" [earlyRow]]
        [⟨false, [], "b"⟩]).any fun reader => reader.id = "c" && reader.rows.any (hidesRow [firstSecond])) = true := by
  constructor <;> decide +kernel

end Signy.Merge
