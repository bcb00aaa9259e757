/-
Log parts merged into one (signy/src/part/row_stream.rs, part/reader.rs, merge/selection.rs): the rows of a part are
read back from its columns a page of row groups at a time, the parts are merged through a heap of their heads, and what
the predicate keeps is written as it comes.

The scan of a merge has no filter, no limit and an unbounded range of time, so that none of these is in the model. The
heap is any that gives a least head first. Counters of rows do not reach 2^64.
-/
import Fn0.Lib.HeapMerge
import Fn0.Signy.StreamedPart

open Std (ExtTreeMap)

namespace Signy.PartWriter

open Merge (StoredRow sortKey)
open HeapMerge (Heap Merger)

/-! ## Rows from columns -/

/-- The metadata of a row from its columns and its residual, both in the order of the keys. -/
def restore : List (String × Option String) → Fields → Fields
  | [], rest => rest
  | (key, value) :: columns, rest =>
    rest.takeWhile (fun pair => pair.1 < key) ++ (value.map fun value => (key, value)).toList ++
      restore columns (rest.dropWhile fun pair => pair.1 < key)

def restoreRow (metadataKeys : List String) (batch : RecordBatch) (i : Nat) : StoredRow where
  tenant := batch.tenants.getD i ""
  entry.timestampNs := batch.timestamps.getD i 0
  entry.line := batch.lines.getD i ""
  entry.structuredMetadata :=
    restore (metadataKeys.zip (batch.metadata.map fun column => column.getD i none))
      ((batch.residual.getD i none).getD [])

def scanBatch (id : String) (metadataKeys : List String) (tenant : String) (batch : RecordBatch) (rowGroup : Nat) :
    Except String (List StoredRow) :=
  (List.range batch.tenants.length).mapM fun i =>
    let row := restoreRow metadataKeys batch i
    if row.tenant ≠ tenant then
      .error ("part " ++ id ++ " row group " ++ toString rowGroup ++ " contains rows outside tenant " ++ tenant)
    else .ok row

def tenantSegment (m : MetaFile) (tenant : String) : Option TenantSegment :=
    m.tenants.find? fun segment => segment.tenant = tenant

/-- The row groups of a tenant that are in the window. -/
def scanInto (files : PartFiles) (tenant : String) (start stop : Nat) : Except String (List StoredRow) :=
  match tenantSegment files.metadata tenant with
  | none => .ok []
  | some segment =>
    (((Cuts.slice files.data.zipIdx (segment.rowGroupStart, segment.rowGroupEnd)).filter fun group =>
      start ≤ group.2 && group.2 < stop).mapM fun group =>
        scanBatch files.metadata.id (files.metadata.metadataColumns.map Prod.fst) tenant group.1 group.2).map
          List.flatten

def readRowsInRowGroups (files : PartFiles) (start stop : Nat) : Except String (List StoredRow) :=
  ((files.metadata.tenants.filter fun segment => segment.rowGroupStart < stop && start < segment.rowGroupEnd).mapM
    fun segment =>
    scanInto files segment.tenant start stop).map List.flatten

/-! ## Pages -/

structure PartRowStream where
  reader : PartFiles
  nextGroup : Nat
  groupCount : Nat
  groupsPerPage : Nat
  page : List StoredRow
  /-- Every page has a row group, however small the budget. -/
  positive : 0 < groupsPerPage

namespace PartRowStream

def groupsPerPageOf (m : MetaFile) (pageBytes : Nat) : Nat :=
  let rowsPerGroup := max (m.rowCount / max m.rowGroupCount 1) 1
  let bytesPerRow := max (m.materializedBytes / max m.rowCount 1) 1
  let bytesPerGroup := max (min (rowsPerGroup * bytesPerRow) maxU64) 1
  max 1 (min (pageBytes / bytesPerGroup) (max m.rowGroupCount 1))

def new (reader : PartFiles) (pageBytes : Nat) : PartRowStream where
  reader := reader
  nextGroup := 0
  groupCount := reader.metadata.rowGroupCount
  groupsPerPage := groupsPerPageOf reader.metadata pageBytes
  page := []
  positive := lt_max_of_lt_left Nat.one_pos

def nextRow (s : PartRowStream) : Except String (Option StoredRow × PartRowStream) :=
  match s.page with
  | row :: page => .ok (some row, { s with page })
  | [] =>
    if s.groupCount ≤ s.nextGroup then .ok (none, s)
    else
      let stop := min (s.nextGroup + s.groupsPerPage) s.groupCount
      (readRowsInRowGroups s.reader s.nextGroup stop).bind fun rows => nextRow
      { s with nextGroup := stop, page := rows }
termination_by s.groupCount - s.nextGroup
decreasing_by
  have := s.positive
  omega

end PartRowStream

/-! ## The merge -/

abbrev MergedRows : Type := Merger StoredRow PartRowStream

def MergedRows.new (readers : List PartFiles) (pageBytes : Nat) : MergedRows :=
  ⟨readers.map fun reader => .new reader pageBytes, [], false⟩

/-- The loop over the merged rows, until there is none. `none` is a loop that has not ended. -/
def drain {β : Type} (heap : Heap sortKey) (accept : β → StoredRow → Except String β) :
    Nat → MergedRows → β → Option (Except String β)
  | 0, _, _ => none
  | fuel + 1, m, result =>
    match HeapMerge.nextItem heap PartRowStream.nextRow fuel m with
    | none => none
    | some (.error e) => some (.error e)
    | some (.ok (none, _)) => some (.ok result)
    | some (.ok (some row, m)) =>
      match accept result row with
      | .error e => some (.error e)
      | .ok result => drain heap accept fuel m result

def selectMetadataColumns (counts : Counts) : List (String × Nat) :=
  ((counts.toList.insertionSort fun a b => b.2 < a.2 ∨ (a.2 = b.2 ∧ a.1 ≤ b.1)).take maxMetadataColumns).insertionSort
    fun a b => a.1 ≤ b.1

/-- The counts that the inputs recorded, key by key. -/
def sumCounts (columns : List (String × Nat)) : Counts :=
  columns.foldl (fun counts column => counts.insert column.1 (counts.getD column.1 0 + column.2)) ∅

structure GroupRewrite where
  newPart : Option PartFiles
  droppedRows : Nat
  keptRows : Nat

section Rewrite

variable (indexing : Indexing) (parquet : Parquet) (partitionOf : Int → String) (heap : Heap sortKey)
  (keep : StoredRow → Bool)
  (id : String) (rowGroupSize : Nat)

/-- A merged row is dropped, or pushed to the writer. -/
def accept (s : StreamingPartWriter × Nat × Nat) (row : StoredRow) : Except String (StreamingPartWriter × Nat × Nat) :=
  if keep row then (s.1.push indexing row).map fun w => (w, s.2.1, s.2.2 + 1) else .ok (s.1, s.2.1 + 1, s.2.2)

/-- The part is finished and loaded. A merge that keeps no row leaves none. -/
def publish (partition : String) (s : StreamingPartWriter × Nat × Nat) : Except String GroupRewrite := do
  if s.1.rowCount = 0 then return ⟨none, s.2.1, s.2.2⟩
  let files ← s.1.finish indexing parquet id partition
  validateMetaFile partitionOf id partition files.metadata
  return ⟨some files, s.2.1, s.2.2⟩

def streamPageBytes : Nat := 8 * 1024 * 1024

def rewriteGroup (mergeMaxMemoryBytes fuel : Nat) (readers : List PartFiles) : Option (Except String GroupRewrite) :=
  match readers with
  | [] => some (.ok ⟨none, 0, 0⟩)
  | first :: _ =>
    let partition := first.metadata.partition
    match readers.find? fun reader => reader.metadata.partition ≠ partition with
    | some other => some (.error ("merge group spans partitions " ++ partition ++ " and " ++ other.metadata.partition))
    | none =>
      let metadataKeys :=
        (selectMetadataColumns (sumCounts (readers.flatMap fun reader => reader.metadata.metadataColumns))).map Prod.fst
      let parsedKeys :=
        (selectMetadataColumns (sumCounts (readers.flatMap fun reader => reader.metadata.parsedColumns))).map Prod.fst
      let pageBytes := max Merge.minStreamPageBytes
        (min (Merge.mergePagingBudget mergeMaxMemoryBytes / readers.length) streamPageBytes)
      (drain heap (accept indexing keep) fuel (.new readers pageBytes)
        (.create metadataKeys parsedKeys rowGroupSize, 0, 0)).map
        fun result => result.bind (publish indexing parquet partitionOf id partition)

end Rewrite

end Signy.PartWriter
