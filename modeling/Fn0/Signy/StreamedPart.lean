/-
A part that is written one row at a time is the part that is written at once: the same row groups, bounds, segments,
filters and columns. And what either writes as `meta.json`, validation takes.
-/
import Fn0.Signy.PartWriter

open Std (ExtTreeMap)

namespace Signy.PartWriter

open Merge (StoredRow sortKey saturatingAdd)

/-! ## The groups of a stream -/

/-- The row groups of a part. -/
def groupsOf (rowGroupSize : Nat) (rows : List StoredRow) : List (List StoredRow) :=
  Cuts.online StoredRow.tenant rowGroupSize [] rows

/-- The segments of row groups, each at its place in the file. -/
def segmentsOf (range : Nat → ByteRange) (groups : List (List StoredRow)) : List TenantSegment :=
  groups.zipIdx.foldl (fun segments group => addGroup segments group.2 group.1 (range group.2)) []

theorem segmentsOf_concat (range : Nat → ByteRange) (groups : List (List StoredRow)) (group : List StoredRow) :
    segmentsOf range (groups ++ [group]) = addGroup (segmentsOf range groups) groups.length group
      (range groups.length) := by
  simp [segmentsOf, List.zipIdx_append]

namespace StreamingPartWriter

variable (indexing : Indexing) (parquet : Parquet) (metadataKeys parsedKeys : List String) (rowGroupSize : Nat)

def encodeStreamed (group : List StoredRow) : Except String GroupSection :=
  encodeGroupBlooms indexing group (group.map (parsedOf indexing parsedKeys))

/-- The writer that has flushed these groups and fills this one. -/
def reached (done : List (List StoredRow)) (group : List StoredRow) : Except String StreamingPartWriter := do
  let sections ← done.mapM (encodeStreamed indexing parsedKeys)
  let seen := done.flatten ++ group
  return {
    metadataKeys, parsedKeys, rowGroupSize, group
    metadataCounts := ((seen.flatMap metadataNames).filter (· ∈ metadataKeys)).foldl bump ∅
    parsedCounts := ((seen.flatMap fun row => parsedNames (parsedOf indexing parsedKeys row)).filter
      (· ∈ parsedKeys)).foldl bump ∅
    groupParsed := group.map (parsedOf indexing parsedKeys)
    batches := done.map fun group => rowGroupBatch group (group.map (parsedOf indexing parsedKeys))
      metadataKeys parsedKeys
    bloomSections := sections
    rowCount := seen.length
    minTsNs := (timestamps seen).foldl min Retention.maxI64
    maxTsNs := (timestamps seen).foldl max Retention.minI64
    materializedBytes := (seen.map PartWriter.materializedBytes).foldl saturatingAdd 0
    rowGroupMinTs := done.map minTs
    rowGroupMaxTs := done.map maxTs
    rowGroupRows := done.map fun group => asU32 group.length
    rowGroupTsMonotonic := done.map monotonic
    tenants := segmentsOf (fun _ => noBytes) done }

variable {metadataKeys parsedKeys rowGroupSize}

theorem reached_flush {done : List (List StoredRow)} {group : List StoredRow} (hgroup : group ≠ []) :
    (reached indexing metadataKeys parsedKeys rowGroupSize done group >>= flushGroup indexing)
      = reached indexing metadataKeys parsedKeys rowGroupSize (done ++ [group]) [] := by
  have hne : group.isEmpty = false := by simpa using hgroup
  simp [reached, flushGroup, hne, List.mapM_append, segmentsOf_concat, encodeStreamed]

theorem reached_take (done : List (List StoredRow)) (group : List StoredRow) (row : StoredRow) :
    (reached indexing metadataKeys parsedKeys rowGroupSize done group >>= fun w => pure (w.take indexing row))
      = reached indexing metadataKeys parsedKeys rowGroupSize done (group ++ [row]) := by
  simp [reached, take, timestamps, List.foldl_append, ← List.append_assoc]

theorem push_eq (w : StreamingPartWriter) (row : StoredRow) :
    w.push indexing row = if Cuts.closes StoredRow.tenant w.rowGroupSize w.group row
      then w.flushGroup indexing >>= fun w => pure (w.take indexing row) else pure (w.take indexing row) := rfl

theorem reached_push (hsize : 0 < rowGroupSize) (done : List (List StoredRow)) (group : List StoredRow)
    (row : StoredRow) :
    (reached indexing metadataKeys parsedKeys rowGroupSize done group >>= fun w => w.push indexing row)
      = if Cuts.closes StoredRow.tenant rowGroupSize group row
        then reached indexing metadataKeys parsedKeys rowGroupSize (done ++ [group]) [row]
        else reached indexing metadataKeys parsedKeys rowGroupSize done (group ++ [row]) := by
  have hpush : (reached indexing metadataKeys parsedKeys rowGroupSize done group >>= fun w => w.push indexing row)
      = reached indexing metadataKeys parsedKeys rowGroupSize done group >>= fun w =>
        if Cuts.closes StoredRow.tenant rowGroupSize group row then w.flushGroup indexing >>= fun w =>
          pure (w.take indexing row)
        else pure (w.take indexing row) := by
    simp only [reached, push_eq, bind_assoc, pure_bind]
  rw [hpush]
  split
  next hcloses =>
    have hgroup : group ≠ [] := by
      rintro rfl
      rw [Cuts.closes_nil hsize] at hcloses
      cases hcloses
    rw [← bind_assoc, reached_flush indexing hgroup, reached_take, List.nil_append]
  next => rw [reached_take]

/-- The run of the writer over all rows. -/
theorem reached_run (metadataKeys parsedKeys : List String) (hsize : 0 < rowGroupSize) (done : List (List StoredRow))
    (group rows : List StoredRow) :
    (reached indexing metadataKeys parsedKeys rowGroupSize done group >>= fun w =>
        rows.foldlM (push indexing) w >>= flushGroup indexing)
      = reached indexing metadataKeys parsedKeys rowGroupSize
          (done ++ Cuts.online StoredRow.tenant rowGroupSize group rows) [] := by
  induction rows generalizing done group with
  | nil =>
    simp only [List.foldlM_nil, pure_bind, Cuts.online]
    split
    next hempty =>
      rw [List.isEmpty_iff.mp hempty, List.append_nil]
      simp [reached, flushGroup]
    next hne => exact reached_flush indexing (by simpa using hne)
  | cons row rows ih =>
    simp only [List.foldlM_cons, bind_assoc]
    rw [← bind_assoc, reached_push indexing hsize, Cuts.online]
    split
    · rw [ih, List.append_assoc]
      rfl
    · rw [ih]

theorem write_eq (hsize : 0 < rowGroupSize) (id partition : String) (rows : List StoredRow) :
    write indexing parquet id partition metadataKeys parsedKeys rowGroupSize rows
      = reached indexing metadataKeys parsedKeys rowGroupSize (groupsOf rowGroupSize rows) [] >>= fun w =>
          w.close indexing parquet id partition := by
  have hrun := reached_run indexing metadataKeys parsedKeys hsize [] [] rows
  have hcreate : reached indexing metadataKeys parsedKeys rowGroupSize [] []
      = .ok (create metadataKeys parsedKeys rowGroupSize) := rfl
  rw [hcreate, List.nil_append] at hrun
  rw [groupsOf, ← hrun]
  simp only [write, finish, bind_assoc]
  rfl

end StreamingPartWriter

/-! ## Least, greatest and sums -/

theorem foldl_min_eq {l : List Int} {bound : Int} (hne : l ≠ []) (hbound : ∀ t ∈ l, t ≤ bound) :
    l.foldl min bound = l.min?.getD 0 := by
  cases l with
  | nil => exact absurd rfl hne
  | cons t l => rw [List.foldl_cons, min_eq_right (hbound t List.mem_cons_self), List.min?_cons', Option.getD_some]

theorem foldl_max_eq {l : List Int} {bound : Int} (hne : l ≠ []) (hbound : ∀ t ∈ l, bound ≤ t) :
    l.foldl max bound = l.max?.getD 0 := by
  cases l with
  | nil => exact absurd rfl hne
  | cons t l => rw [List.foldl_cons, max_eq_right (hbound t List.mem_cons_self), List.max?_cons', Option.getD_some]

theorem foldl_saturatingAdd {l : List Nat} {start : Nat} (h : start + l.sum ≤ maxU64) :
    l.foldl saturatingAdd start = start + l.sum := by
  induction l generalizing start with
  | nil => rfl
  | cons n l ih =>
    rw [List.sum_cons] at h
    have hadd : saturatingAdd start n = start + n := min_eq_left (by unfold maxU64 at h; omega)
    rw [List.foldl_cons, hadd, ih (by omega), List.sum_cons, Nat.add_assoc]

theorem getD_foldl_bump (names : List String) (counts : Counts) (key : String) :
    (names.foldl bump counts).getD key 0 = counts.getD key 0 + names.count key := by
  induction names generalizing counts with
  | nil => rfl
  | cons name names ih =>
    rw [List.foldl_cons, ih, bump, ExtTreeMap.getD_insert, List.count_cons]
    by_cases hname : name = key
    · subst hname
      simp
      omega
    · simp [hname]

/-- Counting only the names that have a column counts those all. -/
theorem withCounts_filter (names keys : List String) :
    withCounts ((names.filter (· ∈ keys)).foldl bump ∅) keys = withCounts (names.foldl bump ∅) keys := by
  refine List.map_congr_left fun key hkey => ?_
  rw [getD_foldl_bump, getD_foldl_bump, List.count_filter (by simpa using hkey)]

/-! ## The segments of row groups -/

theorem asU32_succ (n : Nat) : asU32 (asU32 n + 1) = asU32 (n + 1) := by
  unfold asU32
  omega

theorem asU32_of_lt {n : Nat} (h : n < 4294967296) : asU32 n = n := Nat.mod_eq_of_lt h

theorem minTs_append {a b : List StoredRow} (ha : a ≠ []) (hb : b ≠ []) : minTs (a ++ b) = min (minTs a) (minTs b) := by
  obtain ⟨x, a, rfl⟩ := List.exists_cons_of_ne_nil ha
  obtain ⟨y, b, rfl⟩ := List.exists_cons_of_ne_nil hb
  simp only [minTs, timestamps, List.map_append, List.map_cons, List.cons_append, List.min?_cons', Option.getD_some,
    List.foldl_append, List.foldl_cons, List.foldl_assoc]

theorem maxTs_append {a b : List StoredRow} (ha : a ≠ []) (hb : b ≠ []) : maxTs (a ++ b) = max (maxTs a) (maxTs b) := by
  obtain ⟨x, a, rfl⟩ := List.exists_cons_of_ne_nil ha
  obtain ⟨y, b, rfl⟩ := List.exists_cons_of_ne_nil hb
  simp only [maxTs, timestamps, List.map_append, List.map_cons, List.cons_append, List.max?_cons', Option.getD_some,
    List.foldl_append, List.foldl_cons, List.foldl_assoc]

def tenantOf (rows : List StoredRow) : String := (rows.head?.map StoredRow.tenant).getD ""

/-- The segment of row groups that follow each other. -/
def segmentOf (range : Nat → ByteRange) (start : Nat) (block : List (List StoredRow)) : TenantSegment where
  tenant := tenantOf block.flatten
  rowGroupStart := asU32 start
  rowGroupEnd := asU32 (start + block.length)
  rowCount := block.flatten.length
  minTsNs := minTs block.flatten
  maxTsNs := maxTs block.flatten
  bytes := ⟨(range start).start, ((List.range' start block.length).map fun ordinal => (range ordinal).stop).foldl max 0⟩

def segmentsFrom (range : Nat → ByteRange) (start : Nat) : List (List (List StoredRow)) → List TenantSegment
  | [] => []
  | block :: blocks => segmentOf range start block :: segmentsFrom range (start + block.length) blocks

theorem segmentsFrom_append (range : Nat → ByteRange) (start : Nat) (a b : List (List (List StoredRow))) :
    segmentsFrom range start (a ++ b) = segmentsFrom range start a ++ segmentsFrom range
      (start + a.flatten.length) b := by
  induction a generalizing start with
  | nil => rfl
  | cons block a ih =>
    rw [List.cons_append, segmentsFrom, segmentsFrom, ih, List.cons_append, List.flatten_cons, List.length_append,
      Nat.add_assoc]

variable {range : Nat → ByteRange}

theorem addGroup_open {segments : List TenantSegment} {group : List StoredRow} {ordinal : Nat}
    (h : ∀ segment ∈ segments.getLast?, segment.tenant ≠ tenantOf group) :
    addGroup segments ordinal group (range ordinal) = segments ++ [segmentOf range ordinal [group]] := by
  have hopened : segmentOf range ordinal [group] = ⟨tenantOf group, asU32 ordinal, asU32 (asU32 ordinal + 1),
    group.length,
      minTs group, maxTs group, range ordinal⟩ := by
    simp [segmentOf, asU32_succ]
  rw [hopened, addGroup]
  cases hlast : segments.getLast? with
  | none =>
    rw [List.getLast?_eq_none_iff.mp hlast]
    rfl
  | some segment => exact if_neg (h segment hlast)

theorem addGroup_grow {segments : List TenantSegment} {block : List (List StoredRow)} {group : List StoredRow}
    {start : Nat}
    (hblock : block.flatten ≠ []) (hgroup : group ≠ []) (htenant : tenantOf block.flatten = tenantOf group) :
    addGroup (segments ++ [segmentOf range start block]) (start + block.length) group (range (start + block.length))
      = segments ++ [segmentOf range start (block ++ [group])] := by
  obtain ⟨row, rest, hrows⟩ := List.exists_cons_of_ne_nil hblock
  have hhead : tenantOf (block.flatten ++ group) = tenantOf block.flatten := by rw [hrows]; rfl
  have hlength : block.length ≠ 0 := by
    rintro h
    rw [List.length_eq_zero_iff.mp h] at hblock
    exact hblock rfl
  have hsame : (segmentOf range start block).tenant = (group.head?.map StoredRow.tenant).getD "" := htenant
  rw [addGroup, List.getLast?_concat]
  simp only [hsame, if_true, List.dropLast_concat]
  simp [segmentOf, minTs_append hblock hgroup, maxTs_append hblock hgroup, hhead, asU32_succ, List.range'_concat,
    Nat.add_assoc]
  exact htenant.symm

/-- Row groups, tenant by tenant. -/
structure Blocks (groups : List (List StoredRow)) (blocks : List (List (List StoredRow))) : Prop where
  flatten : blocks.flatten = groups
  filled : ∀ block ∈ blocks, block ≠ []
  uniform : ∀ block ∈ blocks, ∀ group ∈ block, tenantOf group = tenantOf block.flatten
  apart : blocks.Pairwise fun a b => tenantOf a.flatten < tenantOf b.flatten
  segments : ∀ range, segmentsOf range groups = segmentsFrom range 0 blocks

theorem tenantOf_flatten {group : List StoredRow} (block : List (List StoredRow)) (h : group ≠ []) :
    tenantOf (group :: block).flatten = tenantOf group := by
  obtain ⟨row, rest, rfl⟩ := List.exists_cons_of_ne_nil h
  rfl

/-- One more row group is in the last block, or a block of its own. -/
theorem Blocks.concat {groups : List (List StoredRow)} {blocks : List (List (List StoredRow))}
    (h : Blocks groups blocks)
    {group : List StoredRow} (hfilled : ∀ x ∈ groups ++ [group], x ≠ [])
    (hle : ∀ x ∈ groups, tenantOf x ≤ tenantOf group) : ∃ blocks, Blocks (groups ++ [group]) blocks := by
  have hgroup : group ≠ [] := hfilled group (by simp)
  rcases List.eq_nil_or_concat blocks with rfl | ⟨before, block, rfl⟩
  · refine ⟨[[group]], ⟨by rw [← h.flatten]; rfl, by simp, by simp, List.pairwise_singleton _ _, fun range => ?_⟩⟩
    rw [segmentsOf_concat, h.segments, ← h.flatten]
    exact addGroup_open (by simp [segmentsFrom])
  rw [List.concat_eq_append] at h
  have hapart := List.pairwise_append.mp h.apart
  have hsegments : ∀ range, segmentsOf range groups
      = segmentsFrom range 0 before ++ [segmentOf range before.flatten.length block] := by
    intro range
    rw [h.segments, segmentsFrom_append, Nat.zero_add]
    rfl
  have hlength : groups.length = before.flatten.length + block.length := by
    rw [← h.flatten, List.flatten_append, List.length_append, List.flatten_singleton]
  obtain ⟨first, rest, rfl⟩ := List.exists_cons_of_ne_nil (h.filled block (by simp))
  have hfirst : first ∈ groups := by rw [← h.flatten]; simp
  have hne : first ≠ [] := hfilled first (List.mem_append_left _ hfirst)
  have htenant : tenantOf (first :: rest).flatten = tenantOf first := tenantOf_flatten rest hne
  by_cases hsame : tenantOf first = tenantOf group
  · refine ⟨before ++ [first :: rest ++ [group]], ⟨?_, ?_, ?_, ?_, fun range => ?_⟩⟩
    · rw [← h.flatten]
      simp
    · intro x hx
      rcases List.mem_append.mp hx with hx | hx
      · exact h.filled x (List.mem_append_left _ hx)
      · rw [List.mem_singleton.mp hx]
        exact List.cons_ne_nil _ _
    · intro x hx y hy
      rcases List.mem_append.mp hx with hx | hx
      · exact h.uniform x (List.mem_append_left _ hx) y hy
      · rw [List.mem_singleton.mp hx] at hy ⊢
        rw [List.cons_append, tenantOf_flatten _ hne]
        rcases List.mem_append.mp hy with hy | hy
        · rw [← htenant]
          exact h.uniform _ (by simp) y hy
        · rw [List.mem_singleton.mp hy, hsame]
    · refine List.pairwise_append.mpr ⟨hapart.1, List.pairwise_singleton _ _, fun x hx y hy => ?_⟩
      rw [List.mem_singleton.mp hy, List.cons_append, tenantOf_flatten _ hne, ← htenant]
      exact hapart.2.2 x hx _ (List.mem_singleton_self _)
    · rw [segmentsOf_concat, hsegments, hlength, segmentsFrom_append, Nat.zero_add]
      exact addGroup_grow (by simp [hne]) hgroup (htenant.trans hsame)
  · refine ⟨before ++ [first :: rest] ++ [[group]], ⟨?_, ?_, ?_, ?_, fun range => ?_⟩⟩
    · rw [List.flatten_append, h.flatten]
      rfl
    · intro x hx
      rcases List.mem_append.mp hx with hx | hx
      · exact h.filled x hx
      · rw [List.mem_singleton.mp hx]
        exact List.cons_ne_nil _ _
    · intro x hx y hy
      rcases List.mem_append.mp hx with hx | hx
      · exact h.uniform x hx y hy
      · rw [List.mem_singleton.mp hx] at hy ⊢
        rw [List.mem_singleton.mp hy, tenantOf_flatten [] hgroup]
    · have hlt : tenantOf (first :: rest).flatten < tenantOf [group].flatten := by
        rw [htenant, tenantOf_flatten [] hgroup]
        exact lt_of_le_of_ne (hle first hfirst) hsame
      refine List.pairwise_append.mpr ⟨h.apart, List.pairwise_singleton _ _, fun x hx y hy => ?_⟩
      rw [List.mem_singleton.mp hy]
      rcases List.mem_append.mp hx with hx | hx
      · exact (hapart.2.2 x hx _ (List.mem_singleton_self _)).trans hlt
      · rwa [List.mem_singleton.mp hx]
    · rw [segmentsOf_concat, segmentsFrom_append, hsegments, segmentsFrom_append, Nat.zero_add, Nat.zero_add, h.flatten]
      refine addGroup_open fun segment hsegment => ?_
      rw [List.getLast?_concat, Option.mem_some_iff] at hsegment
      rw [← hsegment]
      exact htenant.trans_ne hsame

theorem exists_blocks {groups : List (List StoredRow)} (hfilled : ∀ group ∈ groups, group ≠ [])
    (hsorted : groups.Pairwise fun a b => tenantOf a ≤ tenantOf b) : ∃ blocks, Blocks groups blocks := by
  induction groups using List.reverseRecOn with
  | nil => exact ⟨[], rfl, by simp, by simp, List.Pairwise.nil, fun _ => rfl⟩
  | append_singleton groups group ih =>
    have hpair := List.pairwise_append.mp hsorted
    obtain ⟨blocks, hblocks⟩ := ih (fun x hx => hfilled x (List.mem_append_left _ hx)) hpair.1
    exact hblocks.concat hfilled fun x hx => hpair.2.2 x hx group (List.mem_singleton_self _)

/-! ## Where the row groups are -/

theorem slice_eq_map {ranges : List ByteRange} {start length : Nat} (h : start + length ≤ ranges.length) :
    Cuts.slice ranges (start, start + length) = (List.range' start length).map fun ordinal =>
      ranges.getD ordinal noBytes := by
  refine List.ext_getElem? fun i => ?_
  rw [Cuts.slice, Nat.add_sub_cancel_left, List.getElem?_take, List.getElem?_drop, List.getElem?_map]
  by_cases hi : i < length
  · have hget : ranges[start + i]? = some ranges[start + i] := List.getElem?_eq_getElem (by omega)
    rw [if_pos hi, List.getElem?_range' hi, Nat.one_mul, Option.map_some, List.getD_eq_getElem?_getD,
      hget, Option.getD_some]
  · rw [if_neg hi, List.getElem?_eq_none (by rw [List.length_range']; omega), Option.map_none]

theorem span_cons {range : ByteRange} {ranges : List ByteRange} (h : ∀ x ∈ range :: ranges, range.start ≤ x.start)
    (hmax : range.start ≤ maxU64) :
    StreamingPartWriter.span (range :: ranges) = ⟨range.start, ((range :: ranges).map ByteRange.stop).foldl max 0⟩ := by
  suffices hspan : ∀ (l : List ByteRange) (stop : Nat), (∀ x ∈ l, range.start ≤ x.start) →
      l.foldl (fun bytes x => ByteRange.mk (min bytes.start x.start) (max bytes.stop x.stop)) ⟨range.start, stop⟩
        = ⟨range.start, (l.map ByteRange.stop).foldl max stop⟩ by
    rw [StreamingPartWriter.span, List.foldl_cons, min_eq_right hmax]
    exact hspan ranges _ fun x hx => h x (List.mem_cons_of_mem _ hx)
  intro l
  induction l with
  | nil => exact fun _ _ => rfl
  | cons x l ih =>
    intro stop hl
    rw [List.foldl_cons, min_eq_left (hl x List.mem_cons_self), ih _ fun y hy => hl y (List.mem_cons_of_mem _ hy)]
    rfl

/-- A segment gets the bytes that it has where the ranges are known from the start. -/
theorem fillBytes_segmentOf {ranges : List ByteRange} (hordered : ranges.Pairwise fun a b => a.start ≤ b.start)
    (haddressed : ∀ range ∈ ranges, range.start ≤ maxU64) {start : Nat} {block : List (List StoredRow)}
    (hne : block ≠ [])
    (hlength : start + block.length ≤ ranges.length) (hcounted : ranges.length < 4294967296) :
    StreamingPartWriter.fillBytes ranges (segmentOf (fun _ => noBytes) start block)
      = segmentOf (fun ordinal => ranges.getD ordinal noBytes) start block := by
  have hslice := slice_eq_map hlength
  have hpair : (Cuts.slice ranges (start, start + block.length)).Pairwise fun a b => a.start ≤ b.start :=
    hordered.drop.take
  have hmem : ∀ x ∈ Cuts.slice ranges (start, start + block.length), x ∈ ranges := by
    intro x hx
    exact List.mem_of_mem_drop (List.mem_of_mem_take hx)
  obtain ⟨group, rest, rfl⟩ := List.exists_cons_of_ne_nil hne
  rw [List.length_cons, List.range'_succ, List.map_cons] at hslice
  rw [List.length_cons] at hlength hpair hmem
  rw [hslice] at hpair hmem
  have hspan := span_cons (List.forall_mem_cons.mpr ⟨le_rfl, (List.pairwise_cons.mp hpair).1⟩)
    (haddressed _ (hmem _ List.mem_cons_self))
  simp only [StreamingPartWriter.fillBytes, segmentOf, List.length_cons, asU32_of_lt (show start < 4294967296 by omega),
    asU32_of_lt (show start + (rest.length + 1) < 4294967296 by omega), hslice, hspan, List.range'_succ, List.map_cons,
    List.map_map]
  rfl

theorem map_fillBytes {ranges : List ByteRange} (hordered : ranges.Pairwise fun a b => a.start ≤ b.start)
    (haddressed : ∀ range ∈ ranges, range.start ≤ maxU64) (hcounted : ranges.length < 4294967296)
    {blocks : List (List (List StoredRow))} (hfilled : ∀ block ∈ blocks, block ≠ []) {start : Nat}
    (hlength : start + blocks.flatten.length ≤ ranges.length) :
    (segmentsFrom (fun _ => noBytes) start blocks).map (StreamingPartWriter.fillBytes ranges)
      = segmentsFrom (fun ordinal => ranges.getD ordinal noBytes) start blocks := by
  induction blocks generalizing start with
  | nil => rfl
  | cons block blocks ih =>
    rw [List.flatten_cons, List.length_append] at hlength
    rw [segmentsFrom, segmentsFrom, List.map_cons,
      fillBytes_segmentOf hordered haddressed (hfilled block List.mem_cons_self) (by omega) hcounted,
      ih (fun x hx => hfilled x (List.mem_cons_of_mem _ hx)) (by omega)]

/-! ## Both writers agree -/

/-- Rows as a part has them: in order, with the timestamps of an `i64`, a size that fits a `u64` and lines whose fields
`extract_json` returns. -/
structure SortedRows (indexing : Indexing) where
  rows : List StoredRow
  sorted : rows.Pairwise fun a b => sortKey a ≤ sortKey b
  represented : ∀ row ∈ rows, Retention.minI64 ≤ row.entry.timestampNs ∧ row.entry.timestampNs ≤ Retention.maxI64
  held : (rows.map materializedBytes).sum ≤ maxU64
  returns : ∀ row ∈ rows, ∃ fuel result, extractJson indexing.parseJson fuel row.entry.line = some result

/-- A size of row groups that the counters of a part can do with: no sum of a start and the size overflows, and the row
groups are counted in a `u32`. -/
structure Fits (rowGroupSize : Nat) (rows : List StoredRow) : Prop where
  positive : 0 < rowGroupSize
  added : ∀ bound ∈ Cuts.bounds StoredRow.tenant rowGroupSize rows, bound.1 + rowGroupSize ≤ maxU64
  counted : (groupsOf rowGroupSize rows).length < 4294967296

/-- A choice of columns. -/
structure ColumnKeys where
  keys : List String
  sorted : keys.Pairwise (· < ·)
  capped : keys.length ≤ maxMetadataColumns

theorem mapM_congr {α β ε : Type} {f g : α → Except ε β} {l : List α} (h : ∀ a ∈ l, f a = g a) :
    l.mapM f = l.mapM g := by
  induction l with
  | nil => rfl
  | cons a l ih =>
    rw [List.mapM_cons, List.mapM_cons, h a List.mem_cons_self, ih fun b hb => h b (List.mem_cons_of_mem _ hb)]

theorem zip_map_self {α β : Type} (f : α → β) (l : List α) : l.zip (l.map f) = l.map fun a => (a, f a) := by
  rw [List.zip_map_right, List.zip_eq_zipWith, List.zipWith_self, List.map_map]
  rfl

/-- The filters depend on the fields that were parsed, not on whether there was a line to parse. -/
theorem encodeGroupBlooms_congr (indexing : Indexing) {group : List StoredRow} {f g : StoredRow → Option Fields}
    (h : ∀ row ∈ group, (f row).getD [] = (g row).getD []) :
    encodeGroupBlooms indexing group (group.map f) = encodeGroupBlooms indexing group (group.map g) := by
  rw [encodeGroupBlooms, encodeGroupBlooms, zip_map_self, zip_map_self, List.mapM_map, List.mapM_map]
  congr 1
  refine mapM_congr fun row hrow => ?_
  simp only [Function.comp, indexedPairs, h row hrow]

section Agreement

variable (indexing : Indexing) (parquet : Parquet) (rowGroupSize : Nat) (rows : List StoredRow)

variable {rowGroupSize} {rows}

theorem rowGroupBounds_of_fits (h : Fits rowGroupSize rows) :
    rowGroupBounds rows rowGroupSize = pure (Cuts.bounds StoredRow.tenant rowGroupSize rows) := by
  refine if_neg ?_
  rw [List.any_eq_true]
  rintro ⟨bound, hbound, hlt⟩
  exact absurd (h.added bound hbound) (not_le_of_gt (of_decide_eq_true hlt))

theorem rowGroupBounds_ok {bounds : List (Nat × Nat)} (h : rowGroupBounds rows rowGroupSize = .ok bounds) :
    bounds = Cuts.bounds StoredRow.tenant rowGroupSize rows := by
  simp only [rowGroupBounds] at h
  split at h
  · cases h
  · exact (Except.ok.inj h).symm

theorem bounds_map {β : Type} (rows : List StoredRow) (hsize : 0 < rowGroupSize) (f : List StoredRow → β) :
    ((Cuts.bounds StoredRow.tenant rowGroupSize rows).map fun bound => f (Cuts.slice rows bound))
      = (groupsOf rowGroupSize rows).map f := by
  rw [groupsOf, ← Cuts.bounds_map_slice hsize, List.map_map]
  rfl

theorem tenantSegments_eq (hsize : 0 < rowGroupSize) (ranges : List ByteRange) :
    tenantSegments rows (Cuts.bounds StoredRow.tenant rowGroupSize rows) ranges
      = segmentsOf (fun ordinal => ranges.getD ordinal noBytes) (groupsOf rowGroupSize rows) := by
  rw [segmentsOf, groupsOf, ← Cuts.bounds_map_slice hsize, List.zipIdx_map, List.foldl_map]
  rfl

theorem rowGroupRows_eq (hsize : 0 < rowGroupSize) :
    ((Cuts.bounds StoredRow.tenant rowGroupSize rows).map fun bound => asU32 (bound.2 - bound.1))
      = (groupsOf rowGroupSize rows).map fun group => asU32 group.length := by
  rw [← bounds_map _ hsize]
  exact List.map_congr_left fun bound hbound => by rw [Cuts.length_slice hbound]

/-- What both writers say of a part with these row groups. -/
def metaOf (id partition : String) (rowGroupSize : Nat) (rows : List StoredRow) (ranges : List ByteRange)
    (metadataColumns parsedColumns : List (String × Nat)) : MetaFile where
  id := id
  partition := partition
  minTsNs := minTs rows
  maxTsNs := maxTs rows
  rowCount := rows.length
  rowGroupCount := asU32 (groupsOf rowGroupSize rows).length
  rowGroupMinTs := (groupsOf rowGroupSize rows).map minTs
  rowGroupMaxTs := (groupsOf rowGroupSize rows).map maxTs
  rowGroupRows := (groupsOf rowGroupSize rows).map fun group => asU32 group.length
  rowGroupTsMonotonic := (groupsOf rowGroupSize rows).map monotonic
  tenants := segmentsOf (fun ordinal => ranges.getD ordinal noBytes) (groupsOf rowGroupSize rows)
  materializedBytes := (rows.map materializedBytes).sum
  metadataColumns := metadataColumns
  parsedColumns := parsedColumns

theorem writeMeta_eq (hfits : Fits rowGroupSize rows) (hheld : (rows.map materializedBytes).sum ≤ maxU64)
    (id partition : String) (metadataColumns parsedColumns : List (String × Nat)) (ranges : List ByteRange) :
    writeMeta id partition rows rowGroupSize metadataColumns parsedColumns ranges
      = pure (metaOf id partition rowGroupSize rows ranges metadataColumns parsedColumns) := by
  have hsize := hfits.positive
  have hcount : (Cuts.bounds StoredRow.tenant rowGroupSize rows).length = (groupsOf rowGroupSize rows).length := by
    rw [groupsOf, ← Cuts.bounds_map_slice hsize, List.length_map]
  rw [writeMeta, rowGroupBounds_of_fits hfits]
  simp only [pure_bind, metaOf, hcount, bounds_map _ hsize, rowGroupRows_eq hsize, tenantSegments_eq hsize,
    Nat.mod_eq_of_lt (Nat.lt_succ_of_le hheld)]

/-- No line has fields, or there are columns for them. -/
def ParsedCovered (parsedKeys : List String) (rows : List StoredRow) : Prop :=
  parsedKeys = [] → ∀ row ∈ rows, (indexing.parsedJsonFields row.entry.line).getD [] = []

theorem parsedOf_of_ne {parsedKeys : List String} (h : parsedKeys ≠ []) :
    StreamingPartWriter.parsedOf indexing parsedKeys = fun row => indexing.parsedJsonFields row.entry.line := by
  funext row
  exact if_neg (by simpa using h)

theorem encodeStreamed_eq {parsedKeys : List String} (hcovered : ParsedCovered indexing parsedKeys rows)
    {group : List StoredRow}
    (hgroup : ∀ row ∈ group, row ∈ rows) :
    StreamingPartWriter.encodeStreamed indexing parsedKeys group
      = encodeGroupBlooms indexing group (group.map fun row => indexing.parsedJsonFields row.entry.line) := by
  refine encodeGroupBlooms_congr indexing fun row hrow => ?_
  by_cases hkeys : parsedKeys = []
  · rw [hcovered hkeys row (hgroup row hrow), StreamingPartWriter.parsedOf, hkeys]
    rfl
  · rw [parsedOf_of_ne indexing hkeys]

theorem streamedBatch_eq (metadataKeys parsedKeys : List String) (group : List StoredRow) :
    rowGroupBatch group (group.map (StreamingPartWriter.parsedOf indexing parsedKeys)) metadataKeys parsedKeys
      = rowGroupBatch group (group.map fun row => indexing.parsedJsonFields row.entry.line) metadataKeys
        parsedKeys := by
  by_cases hkeys : parsedKeys = []
  · rw [hkeys]
    rfl
  · rw [parsedOf_of_ne indexing hkeys]

theorem streamedColumns_eq (parsedKeys : List String) :
    withCounts ((rows.flatMap fun row => parsedNames (StreamingPartWriter.parsedOf indexing parsedKeys row)).foldl
      bump ∅)
        parsedKeys
      = withCounts (parsedColumnCounts (parseRows indexing rows)) parsedKeys := by
  by_cases hkeys : parsedKeys = []
  · rw [hkeys]
    rfl
  · rw [parsedOf_of_ne indexing hkeys, parsedColumnCounts, parseRows, List.flatMap_map]

theorem groupsOf_filled (hsize : 0 < rowGroupSize) {group : List StoredRow} (h : group ∈ groupsOf rowGroupSize rows) :
    group ≠ [] := (Cuts.online_group hsize (by simp) h).1

theorem groupsOf_flatten (rowGroupSize : Nat) (rows : List StoredRow) : (groupsOf rowGroupSize rows).flatten = rows :=
    Cuts.online_flatten [] rows

theorem tenant_le_of_sortKey_le {a b : StoredRow} (h : sortKey a ≤ sortKey b) : a.tenant ≤ b.tenant := by
  rcases Prod.Lex.le_iff.mp h with hlt | ⟨heq, _⟩
  · exact hlt.le
  · exact heq.le

theorem exists_blocks_groupsOf (hsize : 0 < rowGroupSize) (hsorted : rows.Pairwise fun a b => sortKey a ≤ sortKey b) :
    ∃ blocks, Blocks (groupsOf rowGroupSize rows) blocks := by
  refine exists_blocks (fun group hgroup => groupsOf_filled hsize hgroup) ?_
  rw [← groupsOf_flatten rowGroupSize rows] at hsorted
  refine (List.pairwise_flatten.mp hsorted).2.imp_of_mem fun {a b} ha hb hab => ?_
  obtain ⟨x, a, rfl⟩ := List.exists_cons_of_ne_nil (groupsOf_filled hsize ha)
  obtain ⟨y, b, rfl⟩ := List.exists_cons_of_ne_nil (groupsOf_filled hsize hb)
  exact tenant_le_of_sortKey_le (hab x List.mem_cons_self y List.mem_cons_self)

variable (sorted : SortedRows indexing) (metadataKeys parsedKeys : ColumnKeys)

/-- What both writers come to. -/
def written (id partition : String) (rowGroupSize : Nat) : Except String PartFiles := do
  let data := (groupsOf rowGroupSize sorted.rows).map fun group =>
    rowGroupBatch group (parseRows indexing group) metadataKeys.keys parsedKeys.keys
  let index ← (groupsOf rowGroupSize sorted.rows).mapM fun group => encodeGroupBlooms indexing group
    (parseRows indexing group)
  writeIndexSections indexing index
  return ⟨data, index, metaOf id partition rowGroupSize sorted.rows (parquet.rowGroupByteRanges data)
    (withCounts (metadataColumnCounts sorted.rows) metadataKeys.keys)
    (withCounts (parsedColumnCounts (parseRows indexing sorted.rows)) parsedKeys.keys)⟩

/-- `write_part_files` with the counts of the rows. -/
def writeAtOnce (id partition : String) (rowGroupSize : Nat) : Except String PartFiles :=
  writePartFiles indexing parquet id partition sorted.rows (parseRows indexing sorted.rows)
    (withCounts (metadataColumnCounts sorted.rows) metadataKeys.keys)
    (withCounts (parsedColumnCounts (parseRows indexing sorted.rows)) parsedKeys.keys) rowGroupSize

theorem keys_withCounts (counts : Counts) (keys : List String) : (withCounts counts keys).map Prod.fst = keys := by
  rw [withCounts, List.map_map]
  exact List.map_id keys

theorem slice_parseRows (rows : List StoredRow) (bound : Nat × Nat) :
    Cuts.slice (parseRows indexing rows) bound = parseRows indexing (Cuts.slice rows bound) := by
  rw [parseRows, parseRows, Cuts.slice, Cuts.slice, ← List.map_drop, ← List.map_take]

theorem writeAtOnce_eq (hfits : Fits rowGroupSize sorted.rows) (id partition : String) :
    writeAtOnce indexing parquet sorted metadataKeys parsedKeys id partition rowGroupSize
      = written indexing parquet sorted metadataKeys parsedKeys id partition rowGroupSize := by
  have hsize := hfits.positive
  have hdata := bounds_map sorted.rows hsize fun group =>
    rowGroupBatch group (parseRows indexing group) metadataKeys.keys parsedKeys.keys
  have hindex : ((Cuts.bounds StoredRow.tenant rowGroupSize sorted.rows).mapM fun bound =>
        encodeGroupBlooms indexing (Cuts.slice sorted.rows bound) (parseRows indexing (Cuts.slice sorted.rows bound)))
      = (groupsOf rowGroupSize sorted.rows).mapM fun group => encodeGroupBlooms indexing group
        (parseRows indexing group) := by
    rw [groupsOf, ← Cuts.bounds_map_slice hsize, List.mapM_map]
    rfl
  have hlength : (parquet.rowGroupByteRanges ((groupsOf rowGroupSize sorted.rows).map fun group =>
      rowGroupBatch group (parseRows indexing group) metadataKeys.keys parsedKeys.keys)).length
        = (Cuts.bounds StoredRow.tenant rowGroupSize sorted.rows).length := by
    rw [parquet.length_ranges, ← hdata, List.length_map]
  simp only [writeAtOnce, writePartFiles, rowGroupBounds_of_fits hfits, pure_bind, keys_withCounts,
    slice_parseRows, hdata,
    hlength, hindex, ne_eq, not_true, if_false, writeMeta_eq hfits sorted.held]
  rfl

theorem streamedMin_eq :
    (if sorted.rows.length = 0 then 0 else (timestamps sorted.rows).foldl min (Retention.maxI64 : Int)) =
      minTs sorted.rows := by
  split
  next h => rw [List.length_eq_zero_iff.mp h]; rfl
  next h =>
    refine foldl_min_eq (by simpa [timestamps] using h) fun t ht => ?_
    obtain ⟨row, hrow, rfl⟩ := List.mem_map.mp ht
    exact (sorted.represented row hrow).2

theorem streamedMax_eq :
    (if sorted.rows.length = 0 then 0 else (timestamps sorted.rows).foldl max Retention.minI64) =
      maxTs sorted.rows := by
  split
  next h => rw [List.length_eq_zero_iff.mp h]; rfl
  next h =>
    refine foldl_max_eq (by simpa [timestamps] using h) fun t ht => ?_
    obtain ⟨row, hrow, rfl⟩ := List.mem_map.mp ht
    exact (sorted.represented row hrow).1

theorem streamedTenants_eq (hfits : Fits rowGroupSize sorted.rows) {data : List RecordBatch}
    (hdata : data.length = (groupsOf rowGroupSize sorted.rows).length) :
    (segmentsOf (fun _ => noBytes) (groupsOf rowGroupSize sorted.rows)).map
        (StreamingPartWriter.fillBytes (parquet.rowGroupByteRanges data))
      = segmentsOf (fun ordinal => (parquet.rowGroupByteRanges data).getD ordinal noBytes)
        (groupsOf rowGroupSize sorted.rows) := by
  obtain ⟨blocks, hblocks⟩ := exists_blocks_groupsOf hfits.positive sorted.sorted
  have hlength : (parquet.rowGroupByteRanges data).length = (groupsOf rowGroupSize sorted.rows).length := by
    rw [parquet.length_ranges, hdata]
  rw [hblocks.segments, hblocks.segments]
  refine map_fillBytes (parquet.ordered _) (parquet.addressed _) (hlength ▸ hfits.counted) hblocks.filled ?_
  rw [hblocks.flatten]
  omega

theorem streamed_eq (hfits : Fits rowGroupSize sorted.rows)
    (hcovered : ParsedCovered indexing parsedKeys.keys sorted.rows)
    (id partition : String) :
    StreamingPartWriter.write indexing parquet id partition metadataKeys.keys parsedKeys.keys rowGroupSize sorted.rows
      = written indexing parquet sorted metadataKeys parsedKeys id partition rowGroupSize := by
  have hflatten := groupsOf_flatten rowGroupSize sorted.rows
  have hindex : (groupsOf rowGroupSize sorted.rows).mapM (StreamingPartWriter.encodeStreamed indexing parsedKeys.keys)
      = (groupsOf rowGroupSize sorted.rows).mapM fun group => encodeGroupBlooms indexing group
        (parseRows indexing group) := by
    refine mapM_congr fun group hgroup => encodeStreamed_eq indexing hcovered fun row hrow => ?_
    rw [← hflatten]
    exact List.mem_flatten_of_mem hgroup hrow
  have hdata : ((groupsOf rowGroupSize sorted.rows).map fun group => rowGroupBatch group
        (group.map (StreamingPartWriter.parsedOf indexing parsedKeys.keys)) metadataKeys.keys parsedKeys.keys)
      = (groupsOf rowGroupSize sorted.rows).map fun group =>
        rowGroupBatch group (parseRows indexing group) metadataKeys.keys parsedKeys.keys :=
    List.map_congr_left fun group _ => streamedBatch_eq indexing _ _ group
  have hbytes : (sorted.rows.map materializedBytes).foldl saturatingAdd 0 =
    (sorted.rows.map materializedBytes).sum := by
    rw [foldl_saturatingAdd (by rw [Nat.zero_add]; exact sorted.held), Nat.zero_add]
  rw [StreamingPartWriter.write_eq indexing parquet hfits.positive]
  simp only [StreamingPartWriter.reached, bind_assoc, pure_bind, StreamingPartWriter.close, hflatten,
    List.append_nil, hindex,
    hdata, parquet.length_ranges, List.length_map, ne_eq, not_true, if_false, streamedMin_eq, streamedMax_eq, hbytes,
    streamedTenants_eq indexing parquet sorted hfits (List.length_map _), withCounts_filter, streamedColumns_eq]
  rfl

end Agreement

/-! ## What is written is valid -/

theorem minTs_spec {rows : List StoredRow} (h : rows ≠ []) :
    (∃ row ∈ rows, row.entry.timestampNs = minTs rows) ∧ ∀ row ∈ rows, minTs rows ≤ row.entry.timestampNs := by
  obtain ⟨t, ht⟩ := Option.isSome_iff_exists.mp (List.isSome_min?_of_ne_nil (l := timestamps rows)
    (by simpa [timestamps] using h))
  have hmin : minTs rows = t := by rw [minTs, ht, Option.getD_some]
  obtain ⟨hmem, hle⟩ := List.min?_eq_some_iff.mp ht
  rw [hmin]
  exact ⟨List.mem_map.mp hmem, fun row hrow => hle _ (List.mem_map_of_mem hrow)⟩

theorem maxTs_spec {rows : List StoredRow} (h : rows ≠ []) :
    (∃ row ∈ rows, row.entry.timestampNs = maxTs rows) ∧ ∀ row ∈ rows, row.entry.timestampNs ≤ maxTs rows := by
  obtain ⟨t, ht⟩ := Option.isSome_iff_exists.mp (List.isSome_max?_of_ne_nil (l := timestamps rows)
    (by simpa [timestamps] using h))
  have hmax : maxTs rows = t := by rw [maxTs, ht, Option.getD_some]
  obtain ⟨hmem, hle⟩ := List.max?_eq_some_iff.mp ht
  rw [hmax]
  exact ⟨List.mem_map.mp hmem, fun row hrow => hle _ (List.mem_map_of_mem hrow)⟩

theorem minTs_le_maxTs {rows : List StoredRow} (h : rows ≠ []) : minTs rows ≤ maxTs rows := by
  obtain ⟨⟨row, hrow, heq⟩, _⟩ := minTs_spec h
  exact heq ▸ (maxTs_spec h).2 row hrow

/-- The least time of the groups is that of their rows. -/
theorem min?_map_minTs {groups : List (List StoredRow)} (hfilled : ∀ group ∈ groups, group ≠ [])
    (hne : groups.flatten ≠ []) :
    (groups.map minTs).min? = some (minTs groups.flatten) := by
  obtain ⟨⟨row, hrow, heq⟩, hle⟩ := minTs_spec hne
  have hlower : ∀ group ∈ groups, minTs groups.flatten ≤ minTs group := by
    intro group hgroup
    obtain ⟨⟨own, hown, howneq⟩, _⟩ := minTs_spec (hfilled group hgroup)
    exact howneq ▸ hle own (List.mem_flatten_of_mem hgroup hown)
  refine List.min?_eq_some_iff.mpr ⟨?_, fun t ht => ?_⟩
  · obtain ⟨group, hgroup, hmem⟩ := List.mem_flatten.mp hrow
    have hupper := (minTs_spec (hfilled group hgroup)).2 row hmem
    exact List.mem_map.mpr ⟨group, hgroup, le_antisymm (hupper.trans heq.le) (hlower group hgroup)⟩
  · obtain ⟨group, hgroup, rfl⟩ := List.mem_map.mp ht
    exact hlower group hgroup

theorem max?_map_maxTs {groups : List (List StoredRow)} (hfilled : ∀ group ∈ groups, group ≠ [])
    (hne : groups.flatten ≠ []) :
    (groups.map maxTs).max? = some (maxTs groups.flatten) := by
  obtain ⟨⟨row, hrow, heq⟩, hle⟩ := maxTs_spec hne
  have hupper : ∀ group ∈ groups, maxTs group ≤ maxTs groups.flatten := by
    intro group hgroup
    obtain ⟨⟨own, hown, howneq⟩, _⟩ := maxTs_spec (hfilled group hgroup)
    exact howneq ▸ hle own (List.mem_flatten_of_mem hgroup hown)
  refine List.max?_eq_some_iff.mpr ⟨?_, fun t ht => ?_⟩
  · obtain ⟨group, hgroup, hmem⟩ := List.mem_flatten.mp hrow
    have hlower := (maxTs_spec (hfilled group hgroup)).2 row hmem
    exact List.mem_map.mpr ⟨group, hgroup, le_antisymm (hupper group hgroup) (heq.ge.trans hlower)⟩
  · obtain ⟨group, hgroup, rfl⟩ := List.mem_map.mp ht
    exact hupper group hgroup

theorem inverted_groups {groups : List (List StoredRow)} (hfilled : ∀ group ∈ groups, group ≠ []) :
    inverted (groups.map minTs) (groups.map maxTs) = false := by
  rw [inverted, List.zip_map', List.any_map, List.any_eq_false]
  intro group hgroup
  have := minTs_le_maxTs (hfilled group hgroup)
  simpa using this

/-- Segments that follow each other from one row group to another. -/
def Tile (start stop : Nat) : List TenantSegment → Prop
  | [] => start = stop
  | segment :: rest => segment.rowGroupStart = start ∧ start < segment.rowGroupEnd ∧ Tile segment.rowGroupEnd stop rest

theorem segmentsFrom_tile (range : Nat → ByteRange) {blocks : List (List (List StoredRow))}
    (hfilled : ∀ block ∈ blocks, block ≠ []) {start : Nat}
    (hfit : start + blocks.flatten.length < 4294967296) :
    Tile start (start + blocks.flatten.length) (segmentsFrom range start blocks) ∧
      ((segmentsFrom range start blocks).map TenantSegment.rowCount).sum = blocks.flatten.flatten.length := by
  induction blocks generalizing start with
  | nil => exact ⟨rfl, rfl⟩
  | cons block blocks ih =>
    rw [List.flatten_cons, List.length_append] at hfit ⊢
    have hpos : 0 < block.length := List.length_pos_iff.mpr (hfilled block List.mem_cons_self)
    obtain ⟨htile, hsum⟩ := ih (fun x hx => hfilled x (List.mem_cons_of_mem _ hx))
      (show start + block.length + blocks.flatten.length < 4294967296 by omega)
    have hend : (segmentOf range start block).rowGroupEnd = start + block.length := asU32_of_lt (by omega)
    rw [segmentsFrom]
    refine ⟨⟨asU32_of_lt (by omega), by omega, ?_⟩, ?_⟩
    · rw [hend, ← Nat.add_assoc]
      exact htile
    · rw [List.map_cons, List.sum_cons, hsum, List.flatten_append, List.length_append]
      rfl

/-- The row groups of a block, among those of the part. -/
theorem slice_block {β : Type} (f : List StoredRow → β) (before block rest : List (List StoredRow)) :
    Cuts.slice ((before ++ (block ++ rest)).map f) (before.length, before.length + block.length) = block.map f := by
  rw [Cuts.slice, ← List.map_drop, List.drop_left, Nat.add_sub_cancel_left, ← List.map_take, List.take_left]

theorem validateSegmentsFrom_blocks {m : MetaFile} {groups : List (List StoredRow)}
    (hmin : m.rowGroupMinTs = groups.map minTs)
    (hmax : m.rowGroupMaxTs = groups.map maxTs) (hcount : m.rowGroupCount = groups.length)
    (hrows : m.rowCount = groups.flatten.length) (hfit : groups.length < 4294967296) (hheld : m.rowCount ≤ maxU64)
    (hfilled : ∀ group ∈ groups, group ≠ []) {before : List (List StoredRow)} {blocks : List (List (List StoredRow))}
    {previous : Option String} (happend : before ++ blocks.flatten = groups) (hblocks : ∀ block ∈ blocks, block ≠ [])
    (hapart : blocks.Pairwise fun a b => tenantOf a.flatten < tenantOf b.flatten)
    (hprevious : ∀ tenant ∈ previous, ∀ block ∈ blocks, tenant < tenantOf block.flatten) :
    validateSegmentsFrom m previous before.length before.flatten.length (segmentsFrom range before.length blocks) =
      .ok () := by
  induction blocks generalizing before previous with
  | nil =>
    rw [List.flatten_nil, List.append_nil] at happend
    rw [segmentsFrom, validateSegmentsFrom, if_neg (by rw [hcount, happend]; simp),
      if_neg (by rw [hrows, happend]; simp)]
  | cons block blocks ih =>
    rw [List.flatten_cons] at happend
    have hlength : groups.length = before.length + (block.length + blocks.flatten.length) := by
      rw [← happend, List.length_append, List.length_append]
    have hpos : 0 < block.length := List.length_pos_iff.mpr (hblocks block List.mem_cons_self)
    have hown : ∀ group ∈ block, group ≠ [] := by
      intro group hgroup
      refine hfilled group ?_
      rw [← happend]
      simp [hgroup]
    have hne : block.flatten ≠ [] := by
      obtain ⟨group, rest, rfl⟩ := List.exists_cons_of_ne_nil (hblocks block List.mem_cons_self)
      simp [hown group List.mem_cons_self]
    have htotal : before.flatten.length + block.flatten.length ≤ m.rowCount := by
      rw [hrows, ← happend, List.flatten_append, List.flatten_append, List.length_append, List.length_append]
      omega
    have hstart : (segmentOf range before.length block).rowGroupStart = before.length := asU32_of_lt (by omega)
    have hend : (segmentOf range before.length block).rowGroupEnd = before.length + block.length :=
      asU32_of_lt (by omega)
    have hsliceMin : Cuts.slice m.rowGroupMinTs (before.length, before.length + block.length) = block.map minTs := by
      rw [hmin, ← happend, slice_block]
    have hsliceMax : Cuts.slice m.rowGroupMaxTs (before.length, before.length + block.length) = block.map maxTs := by
      rw [hmax, ← happend, slice_block]
    have hadd : saturatingAdd before.flatten.length (segmentOf range before.length block).rowCount
        = (before ++ block).flatten.length := by
      rw [List.flatten_append, List.length_append]
      exact min_eq_left (htotal.trans hheld)
    have hsorted : (previous.any fun tenant => (segmentOf range before.length block).tenant ≤ tenant) = false := by
      cases previous with
      | none => rfl
      | some tenant => exact decide_eq_false (not_le_of_gt (hprevious tenant rfl block List.mem_cons_self))
    have hfollow : ∀ tenant ∈ some (tenantOf block.flatten), ∀ x ∈ blocks, tenant < tenantOf x.flatten := by
      intro tenant htenant x hx
      cases htenant
      exact (List.pairwise_cons.mp hapart).1 x hx
    have hrest := ih ((List.append_assoc _ _ _).trans happend) (fun x hx => hblocks x (List.mem_cons_of_mem _ hx))
      (List.pairwise_cons.mp hapart).2 hfollow
    rw [segmentsFrom, validateSegmentsFrom, hsorted, hadd, hstart, hend]
    rw [if_neg Bool.false_ne_true, if_neg (by omega), if_neg (by omega), if_neg, if_neg, if_neg]
    · rw [List.length_append] at hrest
      exact hrest
    · exact fun hzero => hne (List.length_eq_zero_iff.mp hzero)
    · rw [hsliceMin, hsliceMax, inverted_groups hown]
      exact Bool.false_ne_true
    · rw [groupsMin, groupsMax, hsliceMin, hsliceMax, min?_map_minTs hown hne, max?_map_maxTs hown hne]
      simp [segmentOf]

theorem everyPair_of_pairwise {α : Type} {holds : α → α → Bool} {l : List α}
    (h : l.Pairwise fun a b => holds a b = true) :
    everyPair holds l = true := by
  induction l with
  | nil => rfl
  | cons a l ih =>
    cases l with
    | nil => rfl
    | cons b l =>
      have hrest := ih (List.pairwise_cons.mp h).2
      simp only [everyPair, List.tail_cons, List.zip_cons_cons, List.all_cons, Bool.and_eq_true] at hrest ⊢
      exact ⟨(List.pairwise_cons.mp h).1 b List.mem_cons_self, hrest⟩

theorem columnsValid_withCounts (counts : Counts) (columns : ColumnKeys) :
    columnsValid (withCounts counts columns.keys) = true := by
  rw [columnsValid, Bool.and_eq_true, decide_eq_true_eq, withCounts, List.length_map]
  refine ⟨everyPair_of_pairwise ?_, columns.capped⟩
  rw [List.pairwise_map]
  exact columns.sorted.imp fun h => decide_eq_true h

theorem sum_asU32_lengths {groups : List (List StoredRow)} (hfit : ∀ group ∈ groups, group.length < 4294967296) :
    (groups.map fun group => asU32 group.length).sum = groups.flatten.length := by
  rw [List.length_flatten]
  exact congrArg List.sum (List.map_congr_left fun group hgroup => asU32_of_lt (hfit group hgroup))

/-- Each row takes some bytes. -/
theorem length_le_materializedBytes (rows : List StoredRow) : rows.length ≤ (rows.map materializedBytes).sum := by
  rw [← List.length_map (f := materializedBytes)]
  refine List.length_le_sum_of_one_le _ fun n hn => ?_
  obtain ⟨row, -, rfl⟩ := List.mem_map.mp hn
  rw [materializedBytes]
  omega

section Valid

variable {indexing : Indexing} {rowGroupSize : Nat} (sorted : SortedRows indexing)
  (hfits : Fits rowGroupSize sorted.rows)
variable (hrows : sorted.rows ≠ [])
include hfits hrows

theorem metaOf_tenants_valid (id partition : String) (ranges : List ByteRange)
    (metadataColumns parsedColumns : List (String × Nat)) :
    validateTenantSegments (metaOf id partition rowGroupSize sorted.rows ranges metadataColumns parsedColumns) =
      .ok () := by
  have hflatten := groupsOf_flatten rowGroupSize sorted.rows
  obtain ⟨blocks, hblocks⟩ := exists_blocks_groupsOf hfits.positive sorted.sorted
  have hsegments : (metaOf id partition rowGroupSize sorted.rows ranges metadataColumns parsedColumns).tenants
      = segmentsFrom (fun ordinal => ranges.getD ordinal noBytes) 0 blocks :=
    hblocks.segments fun ordinal => ranges.getD ordinal noBytes
  have hne : blocks ≠ [] := by
    rintro rfl
    rw [← hblocks.flatten] at hflatten
    exact hrows hflatten.symm
  rw [validateTenantSegments, hsegments, if_neg]
  · exact validateSegmentsFrom_blocks rfl rfl (asU32_of_lt hfits.counted) (congrArg List.length hflatten.symm)
      hfits.counted
      ((length_le_materializedBytes _).trans sorted.held) (fun group hgroup => groupsOf_filled hfits.positive hgroup)
      (show [] ++ blocks.flatten = _ from hblocks.flatten) hblocks.filled hblocks.apart (by simp)
  · obtain ⟨block, rest, rfl⟩ := List.exists_cons_of_ne_nil hne
    exact Bool.false_ne_true

/-- Validation takes what is written for rows of one partition. -/
theorem metaOf_valid {partitionOf : Int → String} {partition : String}
    (hpartition : ∀ row ∈ sorted.rows, partitionOf row.entry.timestampNs = partition)
    (hcounted : ∀ group ∈ groupsOf rowGroupSize sorted.rows, group.length < 4294967296) (id : String)
    (ranges : List ByteRange)
    {metadataColumns parsedColumns : List (String × Nat)} (hmetadata : columnsValid metadataColumns = true)
    (hparsed : columnsValid parsedColumns = true) :
    validateMetaFile partitionOf id partition (metaOf id partition rowGroupSize sorted.rows ranges metadataColumns
      parsedColumns)
      = .ok () := by
  have hflatten := groupsOf_flatten rowGroupSize sorted.rows
  have hfilled : ∀ group ∈ groupsOf rowGroupSize sorted.rows, group ≠ [] := fun group hgroup =>
    groupsOf_filled hfits.positive hgroup
  have hcount : asU32 (groupsOf rowGroupSize sorted.rows).length = (groupsOf rowGroupSize sorted.rows).length :=
    asU32_of_lt hfits.counted
  have hgroups : groupsOf rowGroupSize sorted.rows ≠ [] := fun hnil => hrows (by rw [← hflatten, hnil]; rfl)
  have hne : (groupsOf rowGroupSize sorted.rows).flatten ≠ [] := by rwa [hflatten]
  have hmin : partitionOf (minTs sorted.rows) = partition := by
    obtain ⟨⟨row, hrow, heq⟩, _⟩ := minTs_spec hrows
    rw [← heq, hpartition row hrow]
  have hmax : partitionOf (maxTs sorted.rows) = partition := by
    obtain ⟨⟨row, hrow, heq⟩, _⟩ := maxTs_spec hrows
    rw [← heq, hpartition row hrow]
  have hnonzero : 0 ∉ (groupsOf rowGroupSize sorted.rows).map fun group => asU32 group.length := by
    intro hzero
    obtain ⟨group, hgroup, hlength⟩ := List.mem_map.mp hzero
    rw [asU32_of_lt (hcounted group hgroup)] at hlength
    exact hfilled group hgroup (List.length_eq_zero_iff.mp hlength)
  have hminGroups := min?_map_minTs hfilled hne
  have hmaxGroups := max?_map_maxTs hfilled hne
  have hsum := sum_asU32_lengths hcounted
  rw [hflatten] at hminGroups hmaxGroups hsum
  have hinverted := inverted_groups hfilled
  rw [validateMetaFile, if_neg (by simp [metaOf]), if_neg (by simp [metaOf]),
    if_neg (by simp [metaOf, hcount, hrows, hgroups]),
    if_neg (by simp [metaOf, hmin, hmax, minTs_le_maxTs hrows]),
      if_neg (by simp [metaOf, hcount, hminGroups, hmaxGroups]),
    if_neg (by simpa [metaOf, hcount, hsum] using hnonzero), if_neg (by simp [metaOf, hmetadata, hparsed]),
    if_neg (by simp [metaOf, hinverted])]
  exact metaOf_tenants_valid sorted hfits hrows id partition ranges metadataColumns parsedColumns

omit hrows in
theorem metaOf_tile {id partition : String} {ranges : List ByteRange}
    {metadataColumns parsedColumns : List (String × Nat)} :
    let m := metaOf id partition rowGroupSize sorted.rows ranges metadataColumns parsedColumns
    Tile 0 m.rowGroupCount m.tenants ∧ (m.tenants.map TenantSegment.rowCount).sum = sorted.rows.length := by
  obtain ⟨blocks, hblocks⟩ := exists_blocks_groupsOf hfits.positive sorted.sorted
  have hfit := hfits.counted
  have htile := segmentsFrom_tile (fun ordinal => ranges.getD ordinal noBytes) hblocks.filled
    (show 0 + blocks.flatten.length < 4294967296 by rw [hblocks.flatten]; omega)
  rw [← hblocks.segments, hblocks.flatten, groupsOf_flatten, Nat.zero_add] at htile
  simp only [metaOf, asU32_of_lt hfit]
  exact htile

end Valid

/-- **The streaming writer writes the part that the batch writer writes**, whatever the sorted rows, the size of the row
groups and the columns, if there are columns for the parsed fields or no line has any. The segments of the part tile its
row groups and count every row once, and validation takes it under the partition of its rows if each group's rows are
counted in a `u32`. -/
theorem streamed_as_at_once (indexing : Indexing) (parquet : Parquet) (sorted : SortedRows indexing)
    (metadataKeys parsedKeys : ColumnKeys) {rowGroupSize : Nat} (hfits : Fits rowGroupSize sorted.rows)
    (hcovered : ParsedCovered indexing parsedKeys.keys sorted.rows) (id partition : String) :
    StreamingPartWriter.write indexing parquet id partition metadataKeys.keys parsedKeys.keys rowGroupSize sorted.rows
      = writeAtOnce indexing parquet sorted metadataKeys parsedKeys id partition rowGroupSize ∧
    ∀ files, StreamingPartWriter.write indexing parquet id partition metadataKeys.keys parsedKeys.keys
      rowGroupSize sorted.rows
        = .ok files →
      Tile 0 files.metadata.rowGroupCount files.metadata.tenants ∧
      (files.metadata.tenants.map TenantSegment.rowCount).sum = sorted.rows.length ∧
      ∀ partitionOf : Int → String, sorted.rows ≠ [] →
        (∀ group ∈ groupsOf rowGroupSize sorted.rows, group.length < 4294967296) →
        (∀ row ∈ sorted.rows, partitionOf row.entry.timestampNs = partition) →
        validateMetaFile partitionOf id partition files.metadata = .ok () := by
  have hstreamed := streamed_eq indexing parquet sorted metadataKeys parsedKeys hfits hcovered id partition
  refine ⟨hstreamed.trans (writeAtOnce_eq indexing parquet sorted metadataKeys parsedKeys hfits id partition).symm, ?_⟩
  intro files hfiles
  rw [hstreamed] at hfiles
  obtain ⟨index, _, hfiles⟩ := Except.bind_eq_ok.mp hfiles
  obtain ⟨_, _, hfiles⟩ := Except.bind_eq_ok.mp hfiles
  cases hfiles
  obtain ⟨htile, hsum⟩ := metaOf_tile sorted hfits
  exact ⟨htile, hsum, fun partitionOf hrows hcounted hpartition => metaOf_valid sorted hfits hrows hpartition
    hcounted id _
    (columnsValid_withCounts _ metadataKeys) (columnsValid_withCounts _ parsedKeys)⟩

/-! ## Without columns for parsed fields -/

/-- What the JSON parser makes of the lines of the sample. -/
def sampleParse (line : String) : Option Value :=
  if line = "\x7b\x22a\x22:1\x7d" then some (.object [("a", .number "1")]) else none

/-- A filter of few items has 1024 bits, one of none 8192. -/
def sampleSectionBytes (group : GroupSection) : Nat :=
  8 + (if group.lines.all fun line => line.utf8ByteSize < 3 then 1036 else 140)
    + (group.windows.map fun window => if window = .vacant ∨ window = .saturated then 4 else 144).sum

theorem extractJson_sample {fuel : Nat} {line : String} {result : Except ExtractError Labels}
    (h : extractJson sampleParse fuel line = some result) :
    (if line = "\x7b\x22a\x22:1\x7d" then some [("a", "1")] else none) = result.toOption.map ExtTreeMap.toList := by
  simp only [extractJson, sampleParse] at h
  split_ifs at h ⊢ with hline
  · cases h
    decide +kernel
  · cases h
    rfl

/-- Of one line, what `logql` finds in it; of others nothing. -/
def sampleIndexing : Indexing where
  parseJson := sampleParse
  parsedJsonFields line := if line = "\x7b\x22a\x22:1\x7d" then some [("a", "1")] else none
  extracted := extractJson_sample
  indexedLogfmtFields _ := []
  canonicalIndexValues value := [value]
  sectionBytes sections := 8 + (sections.map sampleSectionBytes).sum

/-- A page header and the texts of each column. -/
def sampleChunkBytes (batch : RecordBatch) : Nat :=
  60 * (4 + batch.metadata.length + batch.parsed.length)
    + ((batch.tenants ++ batch.lines).map fun text => 4 + text.utf8ByteSize).sum

/-- Row groups that follow each other from a place in the file on. -/
def sampleRanges (start : Nat) : List RecordBatch → List ByteRange
  | [] => []
  | batch :: batches =>
    ⟨min start maxU64, min (start + sampleChunkBytes batch) maxU64⟩ :: sampleRanges
    (start + sampleChunkBytes batch) batches

theorem length_sampleRanges (start : Nat) (batches : List RecordBatch) :
    (sampleRanges start batches).length = batches.length := by
  induction batches generalizing start with
  | nil => rfl
  | cons batch batches ih => rw [sampleRanges, List.length_cons, ih, List.length_cons]

theorem mem_sampleRanges {start : Nat} {batches : List RecordBatch} {range : ByteRange}
    (h : range ∈ sampleRanges start batches) :
    min start maxU64 ≤ range.start ∧ range.start ≤ maxU64 := by
  induction batches generalizing start with
  | nil => cases h
  | cons batch batches ih =>
    rcases List.mem_cons.mp h with rfl | h
    · exact ⟨le_rfl, min_le_right _ _⟩
    · exact ⟨(min_le_min_right _ (Nat.le_add_right _ _)).trans (ih h).1, (ih h).2⟩

theorem ordered_sampleRanges (start : Nat) (batches : List RecordBatch) :
    (sampleRanges start batches).Pairwise fun a b => a.start ≤ b.start := by
  induction batches generalizing start with
  | nil => exact .nil
  | cons batch batches ih =>
    refine .cons (fun range hrange => ?_) (ih _)
    exact (min_le_min_right _ (Nat.le_add_right _ _)).trans (mem_sampleRanges hrange).1

/-- A file begins with the four bytes `PAR1`. -/
def sampleParquet : Parquet where
  rowGroupByteRanges := sampleRanges 4
  length_ranges := length_sampleRanges 4
  ordered := ordered_sampleRanges 4
  addressed _ _ h := (mem_sampleRanges h).2

def sampleRows : SortedRows sampleIndexing where
  rows := [⟨"acme", ⟨3, "\x7b\x22a\x22:1\x7d", []⟩⟩, ⟨"acme", ⟨5, "up", [("host", "h1")]⟩⟩, ⟨"bolt", ⟨4, "up", []⟩⟩]
  sorted := by decide +kernel
  represented := by decide +kernel
  held := by decide +kernel
  returns row _ := by
    refine ⟨0, ?_⟩
    simp only [extractJson, sampleIndexing, sampleParse]
    split_ifs <;> exact ⟨_, rfl⟩

def noColumns : ColumnKeys := ⟨[], .nil, by decide⟩

def hostColumn : ColumnKeys := ⟨["host"], List.pairwise_singleton _ _, by decide⟩

def fieldColumn : ColumnKeys := ⟨["a"], List.pairwise_singleton _ _, by decide⟩

theorem bounds_sampleRows : Cuts.bounds StoredRow.tenant 2 sampleRows.rows = [(0, 2), (2, 3)] := by decide +kernel

theorem streamed_as_at_once_sample :
    ∃ files, StreamingPartWriter.write sampleIndexing sampleParquet "p" "1970-01-01" hostColumn.keys fieldColumn.keys 2
        sampleRows.rows = .ok files ∧ files.metadata.tenants.map TenantSegment.bytes = [⟨4, 397⟩, ⟨397, 771⟩] ∧
      validateMetaFile (fun _ => "1970-01-01") "p" "1970-01-01" files.metadata = .ok () := by
  have hgroups : (groupsOf 2 sampleRows.rows).map List.length = [2, 1] := by decide +kernel
  have hfits : Fits 2 sampleRows.rows := by
    refine ⟨by decide, ?_, ?_⟩
    · rw [bounds_sampleRows]
      decide
    · rw [← List.length_map (f := List.length), hgroups]
      decide
  obtain ⟨hagree, hvalid⟩ := streamed_as_at_once sampleIndexing sampleParquet sampleRows hostColumn fieldColumn hfits
    (by intro h; cases h) "p" "1970-01-01"
  obtain ⟨files, hfiles, hbytes⟩ : ∃ files, StreamingPartWriter.write sampleIndexing sampleParquet "p" "1970-01-01"
      hostColumn.keys fieldColumn.keys 2 sampleRows.rows = .ok files ∧
        files.metadata.tenants.map TenantSegment.bytes = [⟨4, 397⟩, ⟨397, 771⟩] := ⟨_, rfl, by decide +kernel⟩
  refine ⟨files, hfiles, hbytes, (hvalid files hfiles).2.2 _ (List.cons_ne_nil _ _)
    (fun group hgroup => ?_) fun _ _ => rfl⟩
  have hlength := List.mem_map_of_mem (f := List.length) hgroup
  rw [hgroups] at hlength
  revert hlength
  generalize group.length = n
  intro hlength
  simp only [List.mem_cons, List.not_mem_nil, or_false] at hlength
  omega

/-- **Without a column for it, a parsed field is indexed by the batch writer only.** -/
theorem unparsed_without_columns :
    (StreamingPartWriter.write sampleIndexing sampleParquet "p" "1970-01-01" noColumns.keys noColumns.keys 1
        (sampleRows.rows.take 1)).toOption.map PartFiles.index = some [⟨["\x7b\x22a\x22:1\x7d"], []⟩] ∧
      (writePartFiles sampleIndexing sampleParquet "p" "1970-01-01" (sampleRows.rows.take 1)
        (parseRows sampleIndexing (sampleRows.rows.take 1)) [] [] 1).toOption.map PartFiles.index
          = some [⟨["\x7b\x22a\x22:1\x7d"], [.filter [("a", "1")]]⟩] := by
  decide +kernel

/-- **With the greatest size of row groups**, only the streaming writer writes a part of two tenants. -/
theorem overflow_at_once :
    (StreamingPartWriter.write sampleIndexing sampleParquet "p" "1970-01-01" hostColumn.keys fieldColumn.keys maxU64
        sampleRows.rows).toOption.isSome = true ∧
      writeAtOnce sampleIndexing sampleParquet sampleRows hostColumn fieldColumn "p" "1970-01-01" maxU64
        = .error "attempt to add with overflow" := by
  decide +kernel

end Signy.PartWriter
