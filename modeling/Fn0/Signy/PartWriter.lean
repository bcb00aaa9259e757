/-
The two writers of log parts (signy/src/part): `write_part_files`, which has all rows of a part at once, and
`StreamingPartWriter`, which gets them one at a time and holds one row group. Both end in the same files.

Of `index.bin` the model has what each filter is built from, not its bits; of `data.parquet` the record batches, with
the contract of the Parquet writer that each batch is one row group and that row groups follow each other. The fields of
a line are those of `extract_json`, on the lines on which it returns; the other things that `logql` finds in a line are
parameters. The checksums, which are functions of the files, and file operations that fail are left out. A panic is an
error.
-/
import Fn0.Lib.Cuts
import Fn0.Signy.FieldExtraction
import Fn0.Signy.MergePass

open Std (ExtTreeMap)

namespace Signy.PartWriter

open Merge (StoredRow sortKey saturatingAdd)

/-! ## Files -/

/-- `as u32` -/
def asU32 (n : Nat) : Nat := n % 4294967296

def maxU64 : Nat := 18446744073709551615

/-- A map of names to values, in the order of the names. -/
abbrev Fields : Type := List (String × String)

abbrev Counts : Type := ExtTreeMap String Nat compare

structure ByteRange where
  start : Nat
  stop : Nat
deriving DecidableEq

structure TenantSegment where
  tenant : String
  rowGroupStart : Nat
  rowGroupEnd : Nat
  rowCount : Nat
  minTsNs : Int
  maxTsNs : Int
  bytes : ByteRange
deriving DecidableEq

structure MetaFile where
  id : String
  partition : String
  minTsNs : Int
  maxTsNs : Int
  rowCount : Nat
  rowGroupCount : Nat
  rowGroupMinTs : List Int
  rowGroupMaxTs : List Int
  rowGroupRows : List Nat
  rowGroupTsMonotonic : List Bool
  tenants : List TenantSegment
  materializedBytes : Nat
  metadataColumns : List (String × Nat)
  parsedColumns : List (String × Nat)
deriving DecidableEq

/-- A row group as columns: one for each metadata key and for each parsed key, and the rest of the metadata. -/
structure RecordBatch where
  tenants : List String
  timestamps : List Int
  lines : List String
  metadata : List (List (Option String))
  parsed : List (List (Option String))
  residual : List (Option Fields)
deriving DecidableEq

/-- The filter of a window of rows: none for no token, one that admits everything for too many, or one of the tokens. -/
inductive Window
  | vacant
  | saturated
  | filter (tokens : List (String × String))
deriving DecidableEq

/-- The filters of a row group: the one of the trigrams of its lines, and those of its windows. -/
structure GroupSection where
  lines : List String
  windows : List Window
deriving DecidableEq

structure PartFiles where
  data : List RecordBatch
  index : List GroupSection
  metadata : MetaFile
deriving DecidableEq

/-- The Parquet writer: where the row groups of a file are. -/
structure Parquet where
  rowGroupByteRanges : List RecordBatch → List ByteRange
  length_ranges : ∀ batches, (rowGroupByteRanges batches).length = batches.length
  ordered : ∀ batches, (rowGroupByteRanges batches).Pairwise fun a b => a.start ≤ b.start
  addressed : ∀ batches, ∀ range ∈ rowGroupByteRanges batches, range.start ≤ maxU64

/-- What `logql` finds in a line, and how long the encoding of the filters is. -/
structure Indexing where
  parseJson : String → Option Value
  parsedJsonFields : String → Option Fields
  /-- `extract_json(line).ok()`, where that returns -/
  extracted : ∀ {fuel line result}, extractJson parseJson fuel line = some result →
    parsedJsonFields line = result.toOption.map ExtTreeMap.toList
  indexedLogfmtFields : String → List (String × List String)
  canonicalIndexValues : String → List String
  sectionBytes : List GroupSection → Nat

/-! ## Rows and groups -/

/-- `windows(2).all` -/
def everyPair {α : Type} (holds : α → α → Bool) (l : List α) : Bool :=
    (l.zip l.tail).all fun pair => holds pair.1 pair.2

def timestamps (rows : List StoredRow) : List Int := rows.map fun row => row.entry.timestampNs

def minTs (rows : List StoredRow) : Int := (timestamps rows).min?.getD 0

def maxTs (rows : List StoredRow) : Int := (timestamps rows).max?.getD 0

/-- One run of timestamps that do not decrease. -/
def monotonic (rows : List StoredRow) : Bool := everyPair (fun a b => a ≤ b) (timestamps rows)

def materializedBytes (row : StoredRow) : Nat :=
  row.entry.line.utf8ByteSize + (row.entry.structuredMetadata.map fun pair => pair.1.utf8ByteSize +
    pair.2.utf8ByteSize).sum + 72

/-- The start of a group and the size are added as `usize`. A sum that does not fit panics; in a build without the check
it wraps to less than the start, and taking the rows of the group panics. -/
def rowGroupBounds (rows : List StoredRow) (rowGroupSize : Nat) : Except String (List (Nat × Nat)) :=
  let bounds := Cuts.bounds StoredRow.tenant rowGroupSize rows
  if bounds.any fun bound => maxU64 < bound.1 + rowGroupSize then .error "attempt to add with overflow" else .ok bounds

def bump (counts : Counts) (name : String) : Counts := counts.insert name (counts.getD name 0 + 1)

def metadataNames (row : StoredRow) : List String := row.entry.structuredMetadata.map Prod.fst

def metadataColumnCounts (rows : List StoredRow) : Counts := (rows.flatMap metadataNames).foldl bump ∅

def parsedNames (parsed : Option Fields) : List String := (parsed.getD []).map Prod.fst

def parsedColumnCounts (parsedRows : List (Option Fields)) : Counts := (parsedRows.flatMap parsedNames).foldl bump ∅

/-- The columns of these keys, with their counts. -/
def withCounts (counts : Counts) (keys : List String) : List (String × Nat) :=
    keys.map fun key => (key, counts.getD key 0)

/-- The pairs of a row whose keys have no column. -/
def residual (metadataKeys : List String) (row : StoredRow) : Option Fields :=
  match row.entry.structuredMetadata.filter fun pair => pair.1 ∉ metadataKeys with
  | [] => none
  | rest => some rest

def rowGroupBatch (rows : List StoredRow) (parsedRows : List (Option Fields)) (metadataKeys parsedKeys : List String) :
    RecordBatch where
  tenants := rows.map StoredRow.tenant
  timestamps := timestamps rows
  lines := rows.map fun row => row.entry.line
  metadata := metadataKeys.map fun key => rows.map fun row => row.entry.structuredMetadata.lookup key
  parsed := parsedKeys.map fun key => parsedRows.map fun parsed => parsed.bind fun fields => fields.lookup key
  residual := rows.map (residual metadataKeys)

/-! ## Filters -/

def bloomWindowRows : Nat := 1024

def maxExactTokensPerWindow : Nat := 65536

def encodeExactFieldToken (name value : String) : Except String (String × String) :=
  if 4294967296 ≤ name.utf8ByteSize then .error "field name is too large"
  else if 4294967296 ≤ value.utf8ByteSize then .error "field value is too large"
  else .ok (name, value)

section Writers

variable (indexing : Indexing)

def parseRows (rows : List StoredRow) : List (Option Fields) :=
  rows.map fun row => indexing.parsedJsonFields row.entry.line

/-- The pairs of a row that are indexed, with every form of the value. -/
def indexedPairs (row : StoredRow) (parsed : Option Fields) : List (String × String) :=
  let logfmt := (indexing.indexedLogfmtFields row.entry.line).flatMap fun field => field.2.map fun value =>
    (field.1, value)
  (row.entry.structuredMetadata ++ parsed.getD [] ++ logfmt).flatMap fun pair =>
    (indexing.canonicalIndexValues pair.2).map fun value => (pair.1, value)

def encodeWindow (tokens : List (String × String)) : Window :=
  if tokens.isEmpty then .vacant else if maxExactTokensPerWindow < tokens.length then .saturated else .filter tokens

def encodeGroupBlooms (rows : List StoredRow) (parsedRows : List (Option Fields)) : Except String GroupSection := do
  let tokens ← (rows.zip parsedRows).mapM fun row =>
    (indexedPairs indexing row.1 row.2).mapM fun pair => encodeExactFieldToken pair.1 pair.2
  let windows := (List.range ((rows.length + bloomWindowRows - 1) / bloomWindowRows)).map fun window =>
    (Cuts.slice tokens (window * bloomWindowRows, (window + 1) * bloomWindowRows)).flatten
  return ⟨rows.map fun row => row.entry.line, if windows.all List.isEmpty then [] else windows.map encodeWindow⟩

/-- The container takes a section of less than 4 GiB. -/
def writeIndexSections (sections : List GroupSection) : Except String Unit :=
  if 4294967296 ≤ indexing.sectionBytes sections then .error "index section is too large" else .ok ()

/-! ## Tenant segments -/

/-- The segments with one more row group: the last one grows, or a new one follows it. The streaming writer learns where
the group is only later; the range is then empty. -/
def addGroup (segments : List TenantSegment) (ordinal : Nat) (group : List StoredRow) (range : ByteRange) :
    List TenantSegment :=
  let tenant := (group.head?.map StoredRow.tenant).getD ""
  let opened : TenantSegment := ⟨tenant, asU32 ordinal, asU32 (asU32 ordinal + 1), group.length, minTs group,
    maxTs group, range⟩
  match segments.getLast? with
  | none => [opened]
  | some segment =>
    if segment.tenant = tenant then
      segments.dropLast ++ [{ segment with
        rowGroupEnd := asU32 (asU32 ordinal + 1)
        rowCount := segment.rowCount + group.length
        minTsNs := min segment.minTsNs (minTs group)
        maxTsNs := max segment.maxTsNs (maxTs group)
        bytes := { segment.bytes with stop := max segment.bytes.stop range.stop } }]
    else segments ++ [opened]

def noBytes : ByteRange := ⟨0, 0⟩

def tenantSegments (rows : List StoredRow) (bounds : List (Nat × Nat)) (ranges : List ByteRange) : List TenantSegment :=
  bounds.zipIdx.foldl (fun segments bound =>
    addGroup segments bound.2 (Cuts.slice rows bound.1) (ranges.getD bound.2 noBytes)) []

/-! ## All rows at once -/

variable (parquet : Parquet)

def writeMeta (id partition : String) (rows : List StoredRow) (rowGroupSize : Nat)
    (metadataColumns parsedColumns : List (String × Nat)) (ranges : List ByteRange) : Except String MetaFile := do
  let bounds ← rowGroupBounds rows rowGroupSize
  return {
    id, partition
    minTsNs := minTs rows
    maxTsNs := maxTs rows
    rowCount := rows.length
    rowGroupCount := asU32 bounds.length
    rowGroupMinTs := bounds.map fun bound => minTs (Cuts.slice rows bound)
    rowGroupMaxTs := bounds.map fun bound => maxTs (Cuts.slice rows bound)
    rowGroupRows := bounds.map fun bound => asU32 (bound.2 - bound.1)
    rowGroupTsMonotonic := bounds.map fun bound => monotonic (Cuts.slice rows bound)
    tenants := tenantSegments rows bounds ranges
    materializedBytes := (rows.map materializedBytes).sum % (maxU64 + 1)
    metadataColumns, parsedColumns }

def writePartFiles (id partition : String) (rows : List StoredRow) (parsedRows : List (Option Fields))
    (metadataColumns parsedColumns : List (String × Nat)) (rowGroupSize : Nat) : Except String PartFiles := do
  let bounds ← rowGroupBounds rows rowGroupSize
  let data := bounds.map fun bound => rowGroupBatch (Cuts.slice rows bound) (Cuts.slice parsedRows bound)
    (metadataColumns.map Prod.fst) (parsedColumns.map Prod.fst)
  let ranges := parquet.rowGroupByteRanges data
  if ranges.length ≠ bounds.length then
    throw ("parquet wrote " ++ toString ranges.length ++ " row groups for " ++ toString bounds.length ++
      " planned boundaries")
  let index ← bounds.mapM fun bound => encodeGroupBlooms indexing (Cuts.slice rows bound) (Cuts.slice parsedRows bound)
  writeIndexSections indexing index
  let metadata ← writeMeta id partition rows rowGroupSize metadataColumns parsedColumns ranges
  return ⟨data, index, metadata⟩

/-! ## One row at a time -/

structure StreamingPartWriter where
  metadataKeys : List String
  metadataCounts : Counts
  parsedKeys : List String
  parsedCounts : Counts
  rowGroupSize : Nat
  group : List StoredRow
  groupParsed : List (Option Fields)
  /-- What the Parquet writer was given. -/
  batches : List RecordBatch
  bloomSections : List GroupSection
  rowCount : Nat
  minTsNs : Int
  maxTsNs : Int
  materializedBytes : Nat
  rowGroupMinTs : List Int
  rowGroupMaxTs : List Int
  rowGroupRows : List Nat
  rowGroupTsMonotonic : List Bool
  tenants : List TenantSegment

namespace StreamingPartWriter

def create (metadataKeys parsedKeys : List String) (rowGroupSize : Nat) : StreamingPartWriter where
  metadataKeys := metadataKeys
  metadataCounts := ∅
  parsedKeys := parsedKeys
  parsedCounts := ∅
  rowGroupSize := rowGroupSize
  group := []
  groupParsed := []
  batches := []
  bloomSections := []
  rowCount := 0
  minTsNs := Retention.maxI64
  maxTsNs := Retention.minI64
  materializedBytes := 0
  rowGroupMinTs := []
  rowGroupMaxTs := []
  rowGroupRows := []
  rowGroupTsMonotonic := []
  tenants := []

def flushGroup (w : StreamingPartWriter) : Except String StreamingPartWriter := do
  if w.group.isEmpty then return w
  let bloom ← encodeGroupBlooms indexing w.group w.groupParsed
  return { w with
    batches := w.batches ++ [rowGroupBatch w.group w.groupParsed w.metadataKeys w.parsedKeys]
    bloomSections := w.bloomSections ++ [bloom]
    rowGroupMinTs := w.rowGroupMinTs ++ [minTs w.group]
    rowGroupMaxTs := w.rowGroupMaxTs ++ [maxTs w.group]
    rowGroupRows := w.rowGroupRows ++ [asU32 w.group.length]
    rowGroupTsMonotonic := w.rowGroupTsMonotonic ++ [monotonic w.group]
    tenants := addGroup w.tenants w.rowGroupMinTs.length w.group noBytes
    group := []
    groupParsed := [] }

/-- The fields of a line. No line is parsed for a part without parsed columns. -/
def parsedOf (parsedKeys : List String) (row : StoredRow) : Option Fields :=
  if parsedKeys.isEmpty then none else indexing.parsedJsonFields row.entry.line

/-- The row joins the group. -/
def take (w : StreamingPartWriter) (row : StoredRow) : StreamingPartWriter :=
  let parsed := parsedOf indexing w.parsedKeys row
  { w with
    rowCount := w.rowCount + 1
    minTsNs := min w.minTsNs row.entry.timestampNs
    maxTsNs := max w.maxTsNs row.entry.timestampNs
    materializedBytes := saturatingAdd w.materializedBytes (PartWriter.materializedBytes row)
    metadataCounts := ((metadataNames row).filter (· ∈ w.metadataKeys)).foldl bump w.metadataCounts
    parsedCounts := ((parsedNames parsed).filter (· ∈ w.parsedKeys)).foldl bump w.parsedCounts
    groupParsed := w.groupParsed ++ [parsed]
    group := w.group ++ [row] }

def push (w : StreamingPartWriter) (row : StoredRow) : Except String StreamingPartWriter := do
  let cut := (w.group.head?.any fun first => first.tenant ≠ row.tenant) || w.rowGroupSize ≤ w.group.length
  let w ← if cut then w.flushGroup indexing else pure w
  return w.take indexing row

def span (ranges : List ByteRange) : ByteRange :=
  ranges.foldl (fun bytes range => ⟨min bytes.start range.start, max bytes.stop range.stop⟩) ⟨maxU64, 0⟩

/-- A segment with the span of its row groups. -/
def fillBytes (ranges : List ByteRange) (segment : TenantSegment) : TenantSegment :=
  { segment with bytes := span (Cuts.slice ranges (segment.rowGroupStart, segment.rowGroupEnd)) }

/-- What `finish` does after the last group. -/
def close (w : StreamingPartWriter) (id partition : String) : Except String PartFiles := do
  writeIndexSections indexing w.bloomSections
  let ranges := parquet.rowGroupByteRanges w.batches
  if ranges.length ≠ w.rowGroupRows.length then
    throw ("parquet wrote " ++ toString ranges.length ++ " row groups for " ++ toString w.rowGroupRows.length ++
      " cut groups")
  let metadata : MetaFile := {
    id, partition
    minTsNs := if w.rowCount = 0 then 0 else w.minTsNs
    maxTsNs := if w.rowCount = 0 then 0 else w.maxTsNs
    rowCount := w.rowCount
    rowGroupCount := asU32 w.rowGroupMinTs.length
    rowGroupMinTs := w.rowGroupMinTs
    rowGroupMaxTs := w.rowGroupMaxTs
    rowGroupRows := w.rowGroupRows
    rowGroupTsMonotonic := w.rowGroupTsMonotonic
    tenants := w.tenants.map (fillBytes ranges)
    materializedBytes := w.materializedBytes
    metadataColumns := withCounts w.metadataCounts w.metadataKeys
    parsedColumns := withCounts w.parsedCounts w.parsedKeys }
  return ⟨w.batches, w.bloomSections, metadata⟩

def finish (w : StreamingPartWriter) (id partition : String) : Except String PartFiles := do
  let w ← w.flushGroup indexing
  w.close indexing parquet id partition

/-- A part of these rows. -/
def write (id partition : String) (metadataKeys parsedKeys : List String) (rowGroupSize : Nat) (rows : List StoredRow) :
    Except String PartFiles := do
  let w ← rows.foldlM (push indexing) (create metadataKeys parsedKeys rowGroupSize)
  w.finish indexing parquet id partition

end StreamingPartWriter

end Writers

/-! ## Validation -/

/-- The least and the greatest time of some row groups. -/
def groupsMin (m : MetaFile) (start stop : Nat) : Int := (Cuts.slice m.rowGroupMinTs (start, stop)).min?.getD 0

def groupsMax (m : MetaFile) (start stop : Nat) : Int := (Cuts.slice m.rowGroupMaxTs (start, stop)).max?.getD 0

def inverted (mins maxs : List Int) : Bool := (mins.zip maxs).any fun pair => pair.2 < pair.1

/-- The loop over the segments. -/
def validateSegmentsFrom (m : MetaFile) (previous : Option String) (expectedStart totalRows : Nat) :
    List TenantSegment → Except String Unit
  | [] =>
    if expectedStart ≠ m.rowGroupCount then .error "part tenant segments do not cover every row group"
    else if totalRows ≠ m.rowCount then .error "part tenant segment row counts do not sum to the part row count"
    else .ok ()
  | segment :: rest =>
    let groups := (segment.rowGroupStart, segment.rowGroupEnd)
    if previous.any (segment.tenant ≤ ·) then .error "part tenant segments are not sorted by tenant"
    else if segment.rowGroupStart ≠ expectedStart ∨ segment.rowGroupEnd ≤ segment.rowGroupStart then
      .error "part tenant segments do not tile the row groups"
    else if m.rowGroupCount < segment.rowGroupEnd then .error "part tenant segment exceeds the row-group count"
    else if segment.minTsNs ≠ groupsMin m groups.1 groups.2 ∨ segment.maxTsNs ≠ groupsMax m groups.1 groups.2 then
      .error "part tenant segment timestamps do not match its row groups"
    else if inverted (Cuts.slice m.rowGroupMinTs groups) (Cuts.slice m.rowGroupMaxTs groups) then
      .error "part row group timestamps are inverted"
    else if segment.rowCount = 0 then .error "part tenant segment is empty"
    else validateSegmentsFrom m (some segment.tenant) segment.rowGroupEnd
      (saturatingAdd totalRows segment.rowCount) rest

def validateTenantSegments (m : MetaFile) : Except String Unit :=
  if m.tenants.isEmpty then .error "part metadata has no tenant segments" else validateSegmentsFrom m none 0 0 m.tenants

def maxMetadataColumns : Nat := 128

/-- Sorted, unique and capped. -/
def columnsValid (columns : List (String × Nat)) : Bool :=
  everyPair (fun a b => a.1 < b.1) columns && columns.length ≤ maxMetadataColumns

def validateMetaFile (partitionOf : Int → String) (dirId dirPartition : String) (m : MetaFile) : Except String Unit :=
  if m.id ≠ dirId then .error ("part metadata id " ++ m.id ++ " does not match directory " ++ dirId)
  else if m.partition ≠ dirPartition then
    .error ("part metadata partition " ++ m.partition ++ " does not match directory " ++ dirPartition)
  else if m.rowCount = 0 ∨ m.rowGroupCount = 0 then .error "part metadata must contain at least one row and row group"
  else if m.maxTsNs < m.minTsNs ∨ partitionOf m.minTsNs ≠ m.partition ∨ partitionOf m.maxTsNs ≠ m.partition then
    .error "part metadata has an invalid timestamp range"
  else if m.rowGroupMinTs.length ≠ m.rowGroupCount ∨ m.rowGroupMaxTs.length ≠ m.rowGroupCount ∨
      m.rowGroupMinTs.min? ≠ some m.minTsNs ∨ m.rowGroupMaxTs.max? ≠ some m.maxTsNs then
    .error "part metadata has inconsistent row-group bounds"
  else if m.rowGroupRows.length ≠ m.rowGroupCount ∨ m.rowGroupTsMonotonic.length ≠ m.rowGroupCount ∨
      m.rowGroupRows.sum ≠ m.rowCount ∨ 0 ∈ m.rowGroupRows then
    .error "part metadata has inconsistent row-group row counts"
  else if !columnsValid m.metadataColumns || !columnsValid m.parsedColumns then
    .error "part metadata columns are not sorted, unique and capped"
  else if inverted m.rowGroupMinTs m.rowGroupMaxTs then .error "part metadata row-group bounds are not sorted"
  else validateTenantSegments m

end Signy.PartWriter
