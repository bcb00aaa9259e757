/-
A merge writes the sorted union of its inputs, each row once: reading a part gives the rows that were written, pages and
the order of the inputs make no difference, and the new part reads back as the rows that were kept.
-/
import Fn0.Signy.MergedRows

open Std (ExtTreeMap)

namespace Signy.PartWriter

open Merge (StoredRow sortKey)
open HeapMerge (Heap Merger)

/-! ## Columns give the row back -/

theorem restore_cons {key name value : String} (h : name < key) (found : Option String)
    (columns : List (String × Option String))
    (rest : Fields) :
    restore ((key, found) :: columns) ((name, value) :: rest) = (name, value) :: restore
      ((key, found) :: columns) rest := by
  rw [restore, restore, List.takeWhile_cons_of_pos (by exact decide_eq_true h),
    List.dropWhile_cons_of_pos (by exact decide_eq_true h)]
  rfl

/-- A column before everything in the residual. -/
theorem restore_first {key : String} {rest : Fields} (h : ∀ pair ∈ rest, key < pair.1) (found : Option String)
    (columns : List (String × Option String)) :
    restore ((key, found) :: columns) rest = (found.map fun value => (key, value)).toList ++ restore columns rest := by
  cases rest with
  | nil => rfl
  | cons pair rest =>
    have hnot : ¬ pair.1 < key := (h pair List.mem_cons_self).asymm
    rw [restore, List.takeWhile_cons_of_neg (by simpa using hnot), List.dropWhile_cons_of_neg (by simpa using hnot)]
    rfl

theorem lookup_eq_none {metadata : Fields} {key : String} (h : ∀ pair ∈ metadata, pair.1 ≠ key) :
    metadata.lookup key = none := by
  rw [List.lookup_eq_none_iff]
  intro pair hpair
  simpa using fun heq => h pair hpair heq.symm

theorem map_lookup_cons {keys : List String} {pair : String × String} (h : ∀ key ∈ keys, pair.1 ≠ key)
    (metadata : Fields) :
    (keys.map fun key => (key, (pair :: metadata).lookup key)) = keys.map fun key => (key, metadata.lookup key) := by
  refine List.map_congr_left fun key hkey => ?_
  rw [List.lookup_cons, beq_false_of_ne (h key hkey).symm]

theorem filter_notMem_cons {metadata : Fields} {key : String} (h : ∀ pair ∈ metadata, key < pair.1)
    (keys : List String) :
    (metadata.filter fun pair => pair.1 ∉ key :: keys) = metadata.filter fun pair => pair.1 ∉ keys := by
  refine List.filter_congr fun pair hpair => ?_
  simp [(h pair hpair).ne']

theorem restore_metadata (keys : List String) (metadata : Fields) (hkeys : keys.Pairwise (· < ·))
    (hmetadata : (metadata.map Prod.fst).Pairwise (· < ·)) :
    restore (keys.map fun key => (key, metadata.lookup key)) (metadata.filter fun pair => pair.1 ∉ keys) =
      metadata := by
  induction keys generalizing metadata with
  | nil => simp [restore]
  | cons key keys ih =>
    have hbefore : ∀ other ∈ keys, key < other := (List.pairwise_cons.mp hkeys).1
    induction metadata with
    | nil =>
      have hrest := ih [] (List.pairwise_cons.mp hkeys).2 .nil
      rw [List.map_cons, List.filter_nil, restore_first (by simp)]
      exact hrest
    | cons pair metadata ihm =>
      have hafter : ∀ other ∈ metadata, pair.1 < other.1 := by
        intro other hother
        exact (List.pairwise_cons.mp hmetadata).1 other.1 (List.mem_map_of_mem hother)
      have htail := (List.pairwise_cons.mp hmetadata).2
      rcases lt_trichotomy pair.1 key with hlt | heq | hgt
      · -- The pair is in the residual, before the column.
        have hne : ∀ other ∈ key :: keys, pair.1 ≠ other :=
          List.forall_mem_cons.mpr ⟨hlt.ne, fun other hother => (hlt.trans (hbefore other hother)).ne⟩
        rw [map_lookup_cons hne, List.filter_cons_of_pos (by simpa using fun h => hne _ h rfl), List.map_cons,
          restore_cons hlt,
          ← List.map_cons (f := fun k => (k, metadata.lookup k)), ihm htail]
      · -- The pair is the column.
        subst heq
        rw [List.filter_cons_of_neg (by simp), filter_notMem_cons hafter, List.map_cons,
          map_lookup_cons fun other hother => (hbefore other hother).ne,
          restore_first fun other hother => hafter other (List.mem_of_mem_filter hother),
          ih metadata (List.pairwise_cons.mp hkeys).2 htail, List.lookup_cons_self]
        rfl
      · -- No row pair has the key of the column.
        have hall : ∀ other ∈ pair :: metadata, key < other.1 :=
          List.forall_mem_cons.mpr ⟨hgt, fun other hother => hgt.trans (hafter other hother)⟩
        rw [filter_notMem_cons hall, List.map_cons, restore_first fun other hother => hall other
          (List.mem_of_mem_filter hother),
          lookup_eq_none fun other hother => (hall other hother).ne', ih _ (List.pairwise_cons.mp hkeys).2 hmetadata]
        rfl

/-! ## Reading a part -/

theorem mapM_ok {α β ε : Type} {f : α → Except ε β} {g : α → β} {l : List α} (h : ∀ a ∈ l, f a = .ok (g a)) :
    l.mapM f = .ok (l.map g) := by
  rw [mapM_congr h]
  exact List.mapM_pure

theorem map_eq_ok {α β ε : Type} {x : Except ε α} {f : α → β} {b : β} (h : x.map f = .ok b) :
    ∃ a, x = .ok a ∧ f a = b := by
  cases x with
  | error e => cases h
  | ok a => exact ⟨a, rfl, Except.ok.inj h⟩

/-- One value for each key, in the order of the keys. -/
def Canonical (row : StoredRow) : Prop := (metadataNames row).Pairwise (· < ·)

theorem restoreRow_eq (keys : ColumnKeys) {group : List StoredRow} (hcanonical : ∀ row ∈ group, Canonical row)
    (parsed : List (Option Fields)) (parsedKeys : List String) {i : Nat} (hi : i < group.length) :
    restoreRow keys.keys (rowGroupBatch group parsed keys.keys parsedKeys) i = group[i] := by
  have hget : ∀ {β : Type} (f : StoredRow → β) (default : β), (group.map f).getD i default = f group[i] := by
    intro β f default
    rw [List.getD_eq_getElem _ _ (by rwa [List.length_map]), List.getElem_map]
  have hcolumns : keys.keys.zip ((keys.keys.map fun key => group.map fun row =>
    row.entry.structuredMetadata.lookup key).map
      fun column => column.getD i none) = keys.keys.map fun key =>
        (key, group[i].entry.structuredMetadata.lookup key) := by
    simp only [List.map_map, Function.comp_def, hget, zip_map_self]
  have hresidual : (residual keys.keys group[i]).getD []
      = group[i].entry.structuredMetadata.filter fun pair => pair.1 ∉ keys.keys := by
    unfold residual
    split
    next hnil => exact hnil.symm
    next => rfl
  simp only [restoreRow, rowGroupBatch, timestamps, hget, hcolumns, hresidual]
  rw [restore_metadata keys.keys _ keys.sorted (hcanonical _ (List.getElem_mem hi))]

theorem scanBatch_eq (id : String) (keys : ColumnKeys) {group : List StoredRow}
    (hcanonical : ∀ row ∈ group, Canonical row)
    {tenant : String} (htenant : ∀ row ∈ group, row.tenant = tenant) (parsed : List (Option Fields))
    (parsedKeys : List String)
    (rowGroup : Nat) : scanBatch id keys.keys tenant (rowGroupBatch group parsed keys.keys parsedKeys) rowGroup =
      .ok group := by
  rw [scanBatch, show (rowGroupBatch group parsed keys.keys parsedKeys).tenants.length =
    group.length from List.length_map _,
    mapM_ok (g := fun i => group.getD i ⟨"", ⟨0, "", []⟩⟩)]
  · refine congrArg _ (List.ext_getElem (by simp) fun i hi hi' => ?_)
    rw [List.getElem_map, List.getElem_range, List.getD_eq_getElem _ _ hi']
  · intro i hi
    have hlt := List.mem_range.mp hi
    simp only [restoreRow_eq keys hcanonical parsed parsedKeys hlt, htenant _ (List.getElem_mem hlt),
      ne_eq, not_true, if_false,
      List.getD_eq_getElem _ _ hlt]

/-- What of a segment the reader uses. -/
def spanOf (segment : TenantSegment) : String × Nat × Nat :=
    (segment.tenant, segment.rowGroupStart, segment.rowGroupEnd)

/-- The files of a part with these row groups. -/
structure Layout (files : PartFiles) (groups : List (List StoredRow)) : Prop where
  data : ∃ (keys : ColumnKeys) (parsedKeys : List String) (parsed : List StoredRow → List (Option Fields)),
    files.metadata.metadataColumns.map Prod.fst = keys.keys ∧
      files.data = groups.map fun group => rowGroupBatch group (parsed group) keys.keys parsedKeys
  segments : ∃ blocks, Blocks groups blocks ∧
    files.metadata.tenants.map spanOf = (segmentsFrom (fun _ => noBytes) 0 blocks).map spanOf
  counted : files.metadata.rowGroupCount = groups.length ∧ groups.length < 4294967296
  oneTenant : ∀ group ∈ groups, ∀ row ∈ group, row.tenant = tenantOf group
  canonical : ∀ group ∈ groups, ∀ row ∈ group, Canonical row

/-- The groups with an ordinal in the window. -/
def inWindow (start stop offset : Nat) (groups : List (List StoredRow)) : List (List StoredRow) :=
  ((groups.zipIdx offset).filter fun group => start ≤ group.2 && group.2 < stop).map Prod.fst

theorem inWindow_append (start stop offset : Nat) (a b : List (List StoredRow)) :
    inWindow start stop offset (a ++ b) = inWindow start stop offset a ++ inWindow start stop
      (offset + a.length) b := by
  rw [inWindow, List.zipIdx_append, List.filter_append, List.map_append]
  rfl

theorem inWindow_eq_nil {start stop offset : Nat} {groups : List (List StoredRow)}
    (h : ¬ (offset < stop ∧ start < offset + groups.length)) : inWindow start stop offset groups = [] := by
  rw [inWindow, List.map_eq_nil_iff, List.filter_eq_nil_iff]
  intro group hgroup
  have := List.mem_zipIdx hgroup
  simp
  omega

theorem inWindow_eq_self {start stop offset : Nat} {groups : List (List StoredRow)} (hstart : start ≤ offset)
    (hstop : offset + groups.length ≤ stop) : inWindow start stop offset groups = groups := by
  rw [inWindow, List.filter_eq_self.mpr]
  · exact List.zipIdx_map_fst offset groups
  · intro group hgroup
    have := List.mem_zipIdx hgroup
    simp
    omega

/-- A window of the row groups from the first on. -/
theorem inWindow_slice {start stop : Nat} {groups : List (List StoredRow)} (hle : start ≤ stop)
    (hstop : stop ≤ groups.length) :
    inWindow start stop 0 groups = Cuts.slice groups (start, stop) := by
  have hsplit : groups = groups.take start ++ (Cuts.slice groups (start, stop) ++ groups.drop stop) := by
    have := List.take_append_drop (stop - start) (groups.drop start)
    rw [List.drop_drop, show start + (stop - start) = stop by omega] at this
    rw [Cuts.slice, this, List.take_append_drop]
  have hlength : (Cuts.slice groups (start, stop)).length = stop - start := by
    rw [Cuts.slice, List.length_take, List.length_drop]
    omega
  conv_lhs => rw [hsplit]
  rw [inWindow_append, inWindow_append, List.length_take, hlength, inWindow_eq_nil (by rw [List.length_take]; omega),
    inWindow_eq_self (by omega) (by omega), inWindow_eq_nil (by omega), List.nil_append, List.append_nil]

section Read

variable {files : PartFiles} {groups : List (List StoredRow)}

theorem segmentsFrom_tenant (range : Nat → ByteRange) (start : Nat) (blocks : List (List (List StoredRow))) :
    (segmentsFrom range start blocks).map TenantSegment.tenant = blocks.map fun block => tenantOf block.flatten := by
  induction blocks generalizing start with
  | nil => rfl
  | cons block blocks ih =>
    rw [segmentsFrom, List.map_cons, List.map_cons, ih]
    rfl

theorem find?_tenant {segments : List TenantSegment} (h : segments.Pairwise fun a b => a.tenant < b.tenant)
    {segment : TenantSegment} (hsegment : segment ∈ segments) :
      segments.find? (fun other => other.tenant = segment.tenant) = some segment := by
  induction segments with
  | nil => cases hsegment
  | cons first segments ih =>
    obtain ⟨hfirst, hrest⟩ := List.pairwise_cons.mp h
    rcases List.mem_cons.mp hsegment with rfl | hsegment
    · exact List.find?_cons_of_pos (by simp)
    · rw [List.find?_cons_of_neg (by simpa using (hfirst segment hsegment).ne), ih hrest hsegment]

theorem tenantSegment_eq (h : Layout files groups) {segment : TenantSegment}
    (hsegment : segment ∈ files.metadata.tenants) :
    tenantSegment files.metadata segment.tenant = some segment := by
  obtain ⟨blocks, hblocks, hspans⟩ := h.segments
  refine find?_tenant ?_ hsegment
  have htenants := congrArg (List.map Prod.fst) hspans
  rw [List.map_map, List.map_map] at htenants
  have hpair := List.pairwise_map.mpr hblocks.apart
  rw [← segmentsFrom_tenant (fun _ => noBytes) 0] at hpair
  exact List.pairwise_map.mp (htenants ▸ hpair)

/-- The row groups of one block, as far as they are in the window. -/
theorem scanInto_eq (h : Layout files groups) {segment : TenantSegment} (hsegment : segment ∈ files.metadata.tenants)
    {before block rest : List (List StoredRow)} (hgroups : before ++ (block ++ rest) = groups)
    (hspan : spanOf segment = (tenantOf block.flatten, before.length, before.length + block.length))
    (huniform : ∀ group ∈ block, tenantOf group = tenantOf block.flatten) (start stop : Nat) :
    scanInto files segment.tenant start stop = .ok (inWindow start stop before.length block).flatten := by
  obtain ⟨keys, parsedKeys, parsed, hkeys, hdata⟩ := h.data
  obtain ⟨htenant, hstart, hend⟩ : segment.tenant = _ ∧ segment.rowGroupStart = _ ∧ segment.rowGroupEnd = _ := by
    simpa [spanOf] using hspan
  have hslice : Cuts.slice files.data.zipIdx (before.length, before.length + block.length)
      = (block.zipIdx before.length).map
        fun group => (rowGroupBatch group.1 (parsed group.1) keys.keys parsedKeys, group.2) := by
    rw [hdata, ← hgroups, List.zipIdx_map, Cuts.slice, ← List.map_drop, ← List.map_take, List.zipIdx_append,
      List.zipIdx_append,
      List.drop_left' (List.length_zipIdx), Nat.add_sub_cancel_left, List.take_left' (List.length_zipIdx), Nat.zero_add]
    rfl
  rw [scanInto, tenantSegment_eq h hsegment]
  simp only [hstart, hend, hslice, hkeys, List.filter_map, List.mapM_map]
  rw [mapM_ok (g := Prod.fst)]
  · rfl
  · intro group hgroup
    have hblock : group.1 ∈ block := by
      have := List.mem_zipIdx (List.mem_of_mem_filter hgroup)
      rw [this.2.2]
      exact List.getElem_mem _
    have hmem : group.1 ∈ groups := by
      rw [← hgroups]
      simp [hblock]
    refine scanBatch_eq _ keys (h.canonical _ hmem) (fun row hrow => ?_) _ _ _
    rw [h.oneTenant _ hmem row hrow, huniform _ hblock, htenant]

theorem spanOf_segmentOf (range : Nat → ByteRange) {start : Nat} {block : List (List StoredRow)}
    (hfit : start + block.length < 4294967296) :
    spanOf (segmentOf range start block) = (tenantOf block.flatten, start, start + block.length) := by
  rw [spanOf, segmentOf, asU32_of_lt (by omega), asU32_of_lt hfit]

theorem scanSegments_eq (h : Layout files groups) (start stop : Nat) {segments : List TenantSegment}
    (hsegments : ∀ segment ∈ segments, segment ∈ files.metadata.tenants) {before : List (List StoredRow)}
    {blocks : List (List (List StoredRow))} (hgroups : before ++ blocks.flatten = groups)
    (huniform : ∀ block ∈ blocks, ∀ group ∈ block, tenantOf group = tenantOf block.flatten)
    (hspans : segments.map spanOf = (segmentsFrom (fun _ => noBytes) before.length blocks).map spanOf) :
    ((segments.filter fun segment => segment.rowGroupStart < stop && start < segment.rowGroupEnd).mapM fun segment =>
        scanInto files segment.tenant start stop).map List.flatten
      = .ok (inWindow start stop before.length blocks.flatten).flatten := by
  induction blocks generalizing before segments with
  | nil =>
    rw [List.map_eq_nil_iff.mp hspans]
    rfl
  | cons block blocks ih =>
    obtain ⟨segment, segments, rfl⟩ := List.exists_cons_of_ne_nil (l := segments) (by rintro rfl; cases hspans)
    rw [List.flatten_cons] at hgroups
    obtain ⟨hspan, hspans⟩ := List.cons.inj hspans
    have hlength := congrArg List.length hgroups
    rw [List.length_append, List.length_append] at hlength
    rw [spanOf_segmentOf _ (by have := h.counted.2; omega)] at hspan
    have hrest := ih (fun other hother => hsegments other (List.mem_cons_of_mem _ hother))
      ((List.append_assoc _ _ _).trans hgroups)
      (fun other hother => huniform other (List.mem_cons_of_mem _ hother)) (by rwa [List.length_append])
    have hscan := scanInto_eq h (hsegments segment List.mem_cons_self) hgroups hspan
      (huniform block List.mem_cons_self) start stop
    obtain ⟨-, hstart, hend⟩ : segment.tenant = _ ∧ segment.rowGroupStart = _ ∧ segment.rowGroupEnd = _ := by
      simpa [spanOf] using hspan
    rw [List.flatten_cons, inWindow_append, List.flatten_append, ← List.length_append]
    obtain ⟨lists, hlists, heq⟩ := map_eq_ok hrest
    by_cases hwindow : before.length < stop ∧ start < before.length + block.length
    · rw [List.filter_cons_of_pos (by simpa [hstart, hend] using hwindow), List.mapM_cons, hscan, hlists, ← heq]
      rfl
    · rw [List.filter_cons_of_neg (by simpa [hstart, hend] using hwindow), hlists, inWindow_eq_nil hwindow, ← heq]
      rfl

/-- **A window of a part** reads as the rows of its row groups. -/
theorem readRowsInRowGroups_eq (h : Layout files groups) {start stop : Nat} (hle : start ≤ stop)
    (hstop : stop ≤ groups.length) :
    readRowsInRowGroups files start stop = .ok (Cuts.slice groups (start, stop)).flatten := by
  obtain ⟨blocks, hblocks, hspans⟩ := h.segments
  have hread := scanSegments_eq h start stop (fun _ hsegment => hsegment)
    (show [] ++ blocks.flatten = groups from hblocks.flatten)
    hblocks.uniform hspans
  rw [hblocks.flatten, List.length_nil, inWindow_slice hle hstop] at hread
  exact hread

/-! ## Pages -/

/-- The stream still has these rows. -/
def Serves (s : PartRowStream) (rows : List StoredRow) : Prop :=
  ∃ groups, Layout s.reader groups ∧ s.groupCount = groups.length ∧ rows = s.page ++ (groups.drop s.nextGroup).flatten

theorem nextRow_serves : HeapMerge.Serving PartRowStream.nextRow Serves := by
  intro s rows hserves
  fun_induction PartRowStream.nextRow s generalizing rows with
  | case1 s row page hpage =>
    obtain ⟨groups, hlayout, hcount, rfl⟩ := hserves
    rw [hpage]
    exact ⟨_, rfl, groups, hlayout, hcount, rfl⟩
  | case2 s hpage hend =>
    obtain ⟨groups, hlayout, hcount, rfl⟩ := hserves
    have hnil : (groups.drop s.nextGroup).flatten = [] := by rw [List.drop_eq_nil_of_le (by omega)]; rfl
    rw [hpage, hnil]
    exact ⟨s, rfl, groups, hlayout, hcount, by rw [hpage, hnil]; rfl⟩
  | case3 s hpage hmore stop ih =>
    obtain ⟨groups, hlayout, hcount, rfl⟩ := hserves
    have hstop : s.nextGroup ≤ stop ∧ stop ≤ groups.length := by omega
    rw [readRowsInRowGroups_eq hlayout hstop.1 hstop.2]
    refine ih _ _ ⟨groups, hlayout, hcount, ?_⟩
    have hsplit := List.take_append_drop (stop - s.nextGroup) (groups.drop s.nextGroup)
    rw [List.drop_drop, show s.nextGroup + (stop - s.nextGroup) = stop by omega] at hsplit
    rw [hpage, ← hsplit, List.flatten_append]
    rfl

theorem new_serves (h : Layout files groups) (pageBytes : Nat) : Serves (.new files pageBytes) groups.flatten :=
  ⟨groups, h, h.counted.1, rfl⟩

end Read

/-! ## The union -/

/-- The rows in order, each once. -/
def union (rows : List StoredRow) : List StoredRow := rows.dedup.insertionSort fun a b => sortKey a ≤ sortKey b

theorem sortKey_injective : Function.Injective sortKey := by
  rintro ⟨tenant, time, line, metadata⟩ ⟨tenant', time', line', metadata'⟩ h
  obtain ⟨rfl, h⟩ := Prod.mk.inj (toLex.injective h)
  obtain ⟨rfl, h⟩ := Prod.mk.inj (toLex.injective h)
  obtain ⟨rfl, h⟩ := Prod.mk.inj (toLex.injective h)
  obtain rfl : metadata = metadata' := List.map_injective_iff.mpr toLex.injective h
  rfl

theorem mem_union {rows : List StoredRow} {row : StoredRow} : row ∈ union rows ↔ row ∈ rows := by
  rw [union, List.mem_insertionSort, List.mem_dedup]

theorem union_sorted (rows : List StoredRow) : (union rows).Pairwise fun a b => sortKey a < sortKey b := by
  have hnodup : (union rows).Nodup := (List.perm_insertionSort _ _).nodup_iff.mpr (List.nodup_dedup rows)
  exact ((HeapMerge.pairwise_sort sortKey rows.dedup).and hnodup).imp fun h => lt_of_le_of_ne h.1
    (sortKey_injective.ne h.2)

theorem eq_of_sorted {a b : List StoredRow} (ha : a.Pairwise fun x y => sortKey x < sortKey y)
    (hb : b.Pairwise fun x y => sortKey x < sortKey y) (h : ∀ row, row ∈ a ↔ row ∈ b) : a = b := by
  have : Std.Antisymm fun x y : StoredRow => sortKey x < sortKey y := ⟨fun _ _ hxy hyx => absurd hxy hyx.asymm⟩
  have : Std.Irrefl fun x y : StoredRow => sortKey x < sortKey y := ⟨fun _ => lt_irrefl _⟩
  exact ha.eq_of_mem_iff hb h

/-- The least row comes first, the rest is the union of what comes after it. -/
theorem union_eq_cons {rows rest : List StoredRow} {row : StoredRow} (hrow : row ∈ rows)
    (hleast : ∀ other ∈ rows, sortKey row ≤ sortKey other)
    (hrest : rest.Perm (rows.filter fun other => sortKey row < sortKey other)) : union rows = row :: union rest := by
  have hafter : ∀ other, other ∈ rest ↔ other ∈ rows ∧ sortKey row < sortKey other := by
    intro other
    rw [hrest.mem_iff, List.mem_filter, decide_eq_true_eq]
  refine eq_of_sorted (union_sorted rows) (List.pairwise_cons.mpr ⟨?_, union_sorted rest⟩) fun other => ?_
  · intro other hother
    exact ((hafter other).mp (mem_union.mp hother)).2
  · rw [mem_union, List.mem_cons, mem_union, hafter]
    constructor
    · intro hother
      rcases (hleast other hother).eq_or_lt with heq | hlt
      · exact .inl (sortKey_injective heq).symm
      · exact .inr ⟨hother, hlt⟩
    · rintro (rfl | ⟨hother, -⟩)
      · exact hrow
      · exact hother

/-- **The loop over the merged rows** sees the union of what was left, whatever it does with the rows. -/
theorem drain_eq {β : Type} (heap : Heap sortKey) (accept : β → StoredRow → Except String β) {fuel : Nat}
    {m : MergedRows}
    {pending : List StoredRow} (hholds : HeapMerge.Holds sortKey Serves m pending) (hfuel : pending.length < fuel)
    (result : β) :
    drain heap accept fuel m result = some ((union pending).foldlM accept result) := by
  induction fuel generalizing m pending result with
  | zero => cases hfuel
  | succ fuel ih =>
    rw [drain]
    rcases hholds.nextItem heap nextRow_serves (show pending.length ≤ fuel by omega) with
      ⟨rfl, m', hnext⟩ | ⟨row, m', rest, hnext, hrow, hleast, hrest, hholds'⟩
    · simp only [hnext]
      rfl
    · have hlength : rest.length < pending.length := by
        rw [hrest.length_eq]
        exact List.length_filter_lt_length_iff_exists.mpr ⟨row, hrow, by simp⟩
      rw [union_eq_cons hrow hleast hrest, List.foldlM_cons]
      simp only [hnext]
      cases haccept : accept result row with
      | error e => rfl
      | ok result => exact ih hholds' (by omega) result

/-! ## Parts that were written -/

section Parts

variable (indexing : Indexing) (parquet : Parquet) (partitionOf : Int → String)

/-- A part that one of the writers wrote from rows in order, and that was loaded. -/
structure WrittenPart where
  rows : List StoredRow
  sorted : rows.Pairwise fun a b => sortKey a ≤ sortKey b
  canonical : ∀ row ∈ rows, Canonical row
  rowGroupSize : Nat
  positive : 0 < rowGroupSize
  metadataKeys : ColumnKeys
  parsedKeys : ColumnKeys
  id : String
  partition : String
  files : PartFiles
  written : writePartFiles indexing parquet id partition rows (parseRows indexing rows)
      (withCounts (metadataColumnCounts rows) metadataKeys.keys)
      (withCounts (parsedColumnCounts (parseRows indexing rows)) parsedKeys.keys) rowGroupSize = .ok files ∨
    StreamingPartWriter.write indexing parquet id partition metadataKeys.keys parsedKeys.keys rowGroupSize
      rows = .ok files
  loaded : validateMetaFile partitionOf id partition files.metadata = .ok ()

variable {indexing parquet partitionOf}

theorem valid_metadata {id partition : String} {m : MetaFile}
    (h : validateMetaFile partitionOf id partition m = .ok ()) :
    m.partition = partition ∧ m.rowGroupMinTs.length = m.rowGroupCount := by
  unfold validateMetaFile at h
  split_ifs at h with hid hpartition hrows htimes hbounds
  exact ⟨not_not.mp hpartition, not_not.mp fun hne => hbounds (.inl hne)⟩

theorem spanOf_segmentsFrom (range range' : Nat → ByteRange) (start : Nat) (blocks : List (List (List StoredRow))) :
    (segmentsFrom range start blocks).map spanOf = (segmentsFrom range' start blocks).map spanOf := by
  induction blocks generalizing start with
  | nil => rfl
  | cons block blocks ih =>
    rw [segmentsFrom, segmentsFrom, List.map_cons, List.map_cons, ih]
    rfl

theorem writePartFiles_ok {id partition : String} {rows : List StoredRow} {parsedRows : List (Option Fields)}
    {metadataColumns parsedColumns : List (String × Nat)} {rowGroupSize : Nat} {files : PartFiles}
    (h : writePartFiles indexing parquet id partition rows parsedRows metadataColumns parsedColumns rowGroupSize =
      .ok files) :
    files.data = ((Cuts.bounds StoredRow.tenant rowGroupSize rows).map fun bound =>
        rowGroupBatch (Cuts.slice rows bound) (Cuts.slice parsedRows bound) (metadataColumns.map Prod.fst)
          (parsedColumns.map Prod.fst)) ∧
      writeMeta id partition rows rowGroupSize metadataColumns parsedColumns (parquet.rowGroupByteRanges files.data)
        = .ok files.metadata := by
  obtain ⟨bounds, hbounds, h⟩ := Except.bind_eq_ok.mp h
  cases rowGroupBounds_ok hbounds
  simp only at h
  split at h
  · cases h
  obtain ⟨index, -, h⟩ := Except.bind_eq_ok.mp h
  obtain ⟨-, -, h⟩ := Except.bind_eq_ok.mp h
  obtain ⟨metadata, hmetadata, h⟩ := Except.bind_eq_ok.mp h
  cases h
  exact ⟨rfl, hmetadata⟩

namespace WrittenPart

variable (part : WrittenPart indexing parquet partitionOf)

/-- What both writers leave, however the part was written. -/
theorem files_eq : ∃ (parsed : List StoredRow → List (Option Fields)) (range : Nat → ByteRange),
    part.files.data = (groupsOf part.rowGroupSize part.rows).map (fun group =>
        rowGroupBatch group (parsed group) part.metadataKeys.keys part.parsedKeys.keys) ∧
      part.files.metadata.metadataColumns.map Prod.fst = part.metadataKeys.keys ∧
      part.files.metadata.tenants.map spanOf = (segmentsOf range (groupsOf part.rowGroupSize part.rows)).map spanOf ∧
      part.files.metadata.rowGroupCount = asU32 part.files.metadata.rowGroupMinTs.length ∧
      part.files.metadata.rowGroupMinTs.length = (groupsOf part.rowGroupSize part.rows).length := by
  rcases part.written with hwritten | hwritten
  · obtain ⟨hdata, hmetadata⟩ := writePartFiles_ok hwritten
    have hbatches := bounds_map part.rows part.positive fun group =>
      rowGroupBatch group (parseRows indexing group) part.metadataKeys.keys part.parsedKeys.keys
    have hmins := congrArg List.length (bounds_map part.rows part.positive minTs)
    obtain ⟨bounds, hbounds, hmetadata⟩ := Except.bind_eq_ok.mp hmetadata
    cases rowGroupBounds_ok hbounds
    rw [← Except.ok.inj hmetadata]
    refine ⟨parseRows indexing, fun ordinal => (parquet.rowGroupByteRanges part.files.data).getD ordinal noBytes, ?_,
      keys_withCounts _ _, ?_, by simp, hmins.trans (List.length_map _)⟩
    · rw [hdata, ← hbatches]
      simp only [keys_withCounts, slice_parseRows]
    · rw [← tenantSegments_eq part.positive]
  · rw [StreamingPartWriter.write_eq indexing parquet part.positive] at hwritten
    obtain ⟨w, hreached, hclose⟩ := Except.bind_eq_ok.mp hwritten
    obtain ⟨sections, -, hw⟩ := Except.bind_eq_ok.mp hreached
    cases hw
    simp only [StreamingPartWriter.close] at hclose
    obtain ⟨-, -, hclose⟩ := Except.bind_eq_ok.mp hclose
    split at hclose
    · cases hclose
    rw [← Except.ok.inj hclose]
    refine ⟨fun group => group.map (StreamingPartWriter.parsedOf indexing part.parsedKeys.keys), fun _ => noBytes, rfl,
      keys_withCounts _ _, ?_, rfl, List.length_map _⟩
    rw [List.map_map]
    rfl

theorem layout : Layout part.files (groupsOf part.rowGroupSize part.rows) := by
  obtain ⟨parsed, range, hdata, hkeys, hspans, hcount, hlength⟩ := part.files_eq
  obtain ⟨blocks, hblocks⟩ := exists_blocks_groupsOf part.positive part.sorted
  have hvalid := (valid_metadata part.loaded).2
  have hfit : (groupsOf part.rowGroupSize part.rows).length < 4294967296 := by
    rw [← hlength, hvalid, hcount]
    exact Nat.mod_lt _ (by decide)
  refine ⟨⟨part.metadataKeys, part.parsedKeys.keys, parsed, hkeys, hdata⟩, ⟨blocks, hblocks, ?_⟩, ⟨?_, hfit⟩, ?_, ?_⟩
  · rw [hspans, hblocks.segments, spanOf_segmentsFrom]
  · rw [hcount, hlength, asU32_of_lt hfit]
  · intro group hgroup row hrow
    obtain ⟨hne, hsame⟩ := Cuts.online_group part.positive (by simp) hgroup
    obtain ⟨first, rest, rfl⟩ := List.exists_cons_of_ne_nil hne
    exact hsame row hrow first List.mem_cons_self
  · intro group hgroup row hrow
    refine part.canonical row ?_
    rw [← groupsOf_flatten part.rowGroupSize part.rows]
    exact List.mem_flatten_of_mem hgroup hrow

theorem read_eq {start stop : Nat} (hle : start ≤ stop) (hstop : stop ≤ part.files.metadata.rowGroupCount) :
    readRowsInRowGroups part.files start stop
      = .ok (Cuts.slice (groupsOf part.rowGroupSize part.rows) (start, stop)).flatten := by
  rw [part.layout.counted.1] at hstop
  exact readRowsInRowGroups_eq part.layout hle hstop

end WrittenPart

/-! ## The columns of the new part -/

theorem nodup_keys (counts : Counts) : (counts.toList.map Prod.fst).Nodup := by
  refine List.pairwise_map.mpr (counts.distinct_keys_toList.imp fun h heq => h ?_)
  exact compare_eq_iff_eq.mpr heq

/-- The columns that a merge chooses. -/
def chosenKeys (columns : List (String × Nat)) : ColumnKeys where
  keys := (selectMetadataColumns (sumCounts columns)).map Prod.fst
  sorted := by
    have hnodup : ((selectMetadataColumns (sumCounts columns)).map Prod.fst).Nodup := by
      rw [selectMetadataColumns, ((List.perm_insertionSort _ _).map Prod.fst).nodup_iff, List.map_take]
      exact (((List.perm_insertionSort _ _).map Prod.fst).nodup_iff.mpr (nodup_keys _)).take
    have hsorted : ((selectMetadataColumns (sumCounts columns)).map Prod.fst).Pairwise (· ≤ ·) :=
      List.pairwise_map.mpr (HeapMerge.pairwise_sort _ _)
    exact (hsorted.and hnodup).imp fun h => lt_of_le_of_ne h.1 h.2
  capped := by
    rw [List.length_map, selectMetadataColumns, List.length_insertionSort]
    exact List.length_take_le _ _

theorem sumCounts_perm {a b : List (String × Nat)} (h : a.Perm b) : sumCounts a = sumCounts b := by
  refine h.foldl_eq' (fun x _ y _ counts => ExtTreeMap.ext_getElem? fun key => ?_) _
  simp only [ExtTreeMap.getElem?_insert, ExtTreeMap.getD_insert, compare_eq_iff_eq]
  split_ifs <;> grind

/-! ## What a merge stores -/

section Stored

variable (keep : StoredRow → Bool) (parts : List (WrittenPart indexing parquet partitionOf))

theorem foldlM_accept (rows : List StoredRow) (w : StreamingPartWriter) (dropped kept : Nat) :
    rows.foldlM (accept indexing keep) (w, dropped, kept)
      = ((rows.filter keep).foldlM (StreamingPartWriter.push indexing) w).map fun w =>
          (w, dropped + (rows.filter fun row => !keep row).length, kept + (rows.filter keep).length) := by
  induction rows generalizing w dropped kept with
  | nil => rfl
  | cons row rows ih =>
    rw [List.foldlM_cons, accept]
    by_cases hkeep : keep row
    · rw [if_pos hkeep, List.filter_cons_of_pos hkeep, List.filter_cons_of_neg (by simp [hkeep]), List.foldlM_cons]
      cases w.push indexing row with
      | error e => rfl
      | ok w =>
        refine (ih w dropped (kept + 1)).trans ?_
        rw [List.length_cons, Nat.add_assoc, Nat.add_comm 1]
        rfl
    · rw [if_neg hkeep, List.filter_cons_of_neg hkeep, List.filter_cons_of_pos (by simp [hkeep])]
      refine (ih w (dropped + 1) kept).trans ?_
      rw [List.length_cons, Nat.add_assoc, Nat.add_comm 1]

theorem rowCount_push {w w' : StreamingPartWriter} {row : StoredRow} (h : w.push indexing row = .ok w') :
    w'.rowCount = w.rowCount + 1 := by
  rw [StreamingPartWriter.push_eq, StreamingPartWriter.flushGroup] at h
  split_ifs at h
  · cases h
    rfl
  · obtain ⟨flushed, hflush, htake⟩ := Except.bind_eq_ok.mp h
    obtain ⟨bloom, -, hflush⟩ := Except.bind_eq_ok.mp hflush
    cases hflush
    cases htake
    rfl
  · cases h
    rfl

theorem rowCount_run {rows : List StoredRow} {w w' : StreamingPartWriter}
    (h : rows.foldlM (StreamingPartWriter.push indexing) w = .ok w') : w'.rowCount = w.rowCount + rows.length := by
  induction rows generalizing w with
  | nil =>
    cases h
    rfl
  | cons row rows ih =>
    obtain ⟨next, hpush, hrest⟩ := Except.bind_eq_ok.mp h
    rw [ih hrest, rowCount_push hpush, List.length_cons, Nat.add_assoc, Nat.add_comm 1]

variable (indexing parquet partitionOf) (id : String) (rowGroupSize : Nat)

/-- What a merge leaves of these rows: the part that the streaming writer makes of those that are kept. -/
def rewritten (partition : String) (metadataKeys parsedKeys : ColumnKeys) (rows : List StoredRow) :
    Except String GroupRewrite :=
  let kept := rows.filter keep
  let dropped := (rows.filter fun row => !keep row).length
  if kept = [] then .ok ⟨none, dropped, 0⟩
  else do
    let files ← StreamingPartWriter.write indexing parquet id partition metadataKeys.keys parsedKeys.keys
      rowGroupSize kept
    validateMetaFile partitionOf id partition files.metadata
    return ⟨some files, dropped, kept.length⟩

variable {indexing parquet partitionOf} {rowGroupSize}

theorem publish_accept (partition : String) (metadataKeys parsedKeys : ColumnKeys) (rows : List StoredRow) :
    (rows.foldlM (accept indexing keep) (.create metadataKeys.keys parsedKeys.keys rowGroupSize, 0, 0)).bind
        (publish indexing parquet partitionOf id partition)
      = rewritten indexing parquet partitionOf keep id rowGroupSize partition metadataKeys parsedKeys rows := by
  rw [foldlM_accept, rewritten]
  by_cases hkept : rows.filter keep = []
  · simp only [hkept, if_true, Nat.zero_add]
    rfl
  · simp only [hkept, if_false, StreamingPartWriter.write]
    cases hrun : (rows.filter keep).foldlM (StreamingPartWriter.push indexing)
      (.create metadataKeys.keys parsedKeys.keys rowGroupSize) with
    | error e => rfl
    | ok w =>
      have hcount : w.rowCount ≠ 0 := by
        rw [rowCount_run hrun]
        simpa [StreamingPartWriter.create] using hkept
      simp only [Except.map, Except.bind, publish, hcount, if_false, Nat.zero_add]
      rfl

theorem holds_new (pageBytes : Nat) :
    HeapMerge.Holds sortKey Serves (MergedRows.new (parts.map WrittenPart.files) pageBytes)
      (parts.flatMap WrittenPart.rows) := by
  have hserves : List.Forall₂ Serves ((parts.map WrittenPart.files).map fun reader =>
    PartRowStream.new reader pageBytes)
      (parts.map WrittenPart.rows) := by
    rw [List.map_map, List.forall₂_map_left_iff, List.forall₂_map_right_iff, List.forall₂_same]
    intro part _
    rw [← groupsOf_flatten part.rowGroupSize part.rows]
    exact new_serves part.layout pageBytes
  refine List.flatMap_def ▸ HeapMerge.Holds.start hserves fun rest hrest => ?_
  obtain ⟨part, -, rfl⟩ := List.mem_map.mp hrest
  exact part.sorted

theorem rewriteGroup_eq (heap : Heap sortKey) {partition : String}
    (hpartition : ∀ part ∈ parts, part.partition = partition) (memory : Nat) {fuel : Nat}
    (hfuel : (parts.flatMap WrittenPart.rows).length < fuel) :
    rewriteGroup indexing parquet partitionOf heap keep id rowGroupSize memory fuel (parts.map WrittenPart.files)
      = some (rewritten indexing parquet partitionOf keep id rowGroupSize partition
          (chosenKeys (parts.flatMap fun part => part.files.metadata.metadataColumns))
          (chosenKeys (parts.flatMap fun part => part.files.metadata.parsedColumns))
          (union (parts.flatMap WrittenPart.rows))) := by
  cases parts with
  | nil => rfl
  | cons first rest =>
    have hloaded : ∀ part ∈ first :: rest, part.files.metadata.partition = partition := by
      intro part hpart
      exact (valid_metadata part.loaded).1.trans (hpartition part hpart)
    have hnone : ((first :: rest).map WrittenPart.files).find?
        (fun reader => reader.metadata.partition ≠ first.files.metadata.partition) = none := by
      rw [List.find?_eq_none]
      intro reader hreader
      obtain ⟨part, hpart, rfl⟩ := List.mem_map.mp hreader
      simp [hloaded part hpart, hloaded first List.mem_cons_self]
    have hdrain := drain_eq heap (accept indexing keep) (holds_new (first :: rest) (max Merge.minStreamPageBytes
      (min (Merge.mergePagingBudget memory / ((first :: rest).map WrittenPart.files).length) streamPageBytes))) hfuel
    rw [← hloaded first List.mem_cons_self]
    simp only [List.map_cons, rewriteGroup]
    simp only [← List.map_cons, List.flatMap_map, hnone, hdrain]
    exact congrArg some (publish_accept keep id _ (chosenKeys _) (chosenKeys _) _)

theorem read_rewritten {partition : String} {metadataKeys parsedKeys : ColumnKeys} {rows : List StoredRow}
    {rewrite : GroupRewrite} {files : PartFiles} (hsize : 0 < rowGroupSize)
    (hsorted : rows.Pairwise fun a b => sortKey a < sortKey b) (hcanonical : ∀ row ∈ rows, Canonical row)
    (h : rewritten indexing parquet partitionOf keep id rowGroupSize partition metadataKeys parsedKeys rows =
      .ok rewrite)
    (hfiles : rewrite.newPart = some files) :
    readRowsInRowGroups files 0 files.metadata.rowGroupCount = .ok (rows.filter keep) := by
  simp only [rewritten] at h
  split at h
  · cases h
    cases hfiles
  obtain ⟨written, hwritten, h⟩ := Except.bind_eq_ok.mp h
  obtain ⟨_, hloaded, h⟩ := Except.bind_eq_ok.mp h
  cases h
  cases hfiles
  let part : WrittenPart indexing parquet partitionOf :=
    { rows := rows.filter keep
      sorted := (hsorted.filter keep).imp le_of_lt
      canonical := fun row hrow => hcanonical row (List.mem_of_mem_filter hrow)
      rowGroupSize, metadataKeys, parsedKeys, id, partition, files
      positive := hsize
      written := .inr hwritten
      loaded := hloaded }
  have hread := part.read_eq (Nat.zero_le _) le_rfl
  rw [part.layout.counted.1, Cuts.slice, List.drop_zero, Nat.sub_zero, List.take_length, groupsOf_flatten] at hread
  rw [show files.metadata.rowGroupCount = _ from part.layout.counted.1]
  exact hread

end Stored

theorem foldlM_collect (rows start : List StoredRow) :
    rows.foldlM (fun yielded row => (.ok (yielded ++ [row]) : Except String (List StoredRow))) start = .ok
      (start ++ rows) := by
  induction rows generalizing start with
  | nil =>
    rw [List.append_nil]
    rfl
  | cons row rows ih => exact (ih (start ++ [row])).trans (by simp)

theorem union_congr {a b : List StoredRow} (h : ∀ row, row ∈ a ↔ row ∈ b) : union a = union b :=
  eq_of_sorted (union_sorted a) (union_sorted b) fun row => by rw [mem_union, mem_union, h]

/-- **A merge stores the sorted union of its inputs**, each row once and as it was written. The rows that the merge
yields are the same for every order of the parts and every size of the pages; so is what a merge of one partition
returns, with every budget of memory; and the part that it returns reads back as the rows that the predicate keeps. -/
theorem merge_stores_union (heap : Heap sortKey) (parts : List (WrittenPart indexing parquet partitionOf))
    (keep : StoredRow → Bool) (id : String) {rowGroupSize : Nat} (hsize : 0 < rowGroupSize) :
    ∃ (rows : List StoredRow) (metadataKeys parsedKeys : ColumnKeys),
      rows.Pairwise (fun a b => sortKey a < sortKey b) ∧ (∀ row, row ∈ rows ↔ ∃ part ∈ parts, row ∈ part.rows) ∧
      (∀ order : List (WrittenPart indexing parquet partitionOf), order.Perm parts →
        ∀ fuel, (parts.flatMap WrittenPart.rows).length < fuel →
        (∀ pageBytes, drain heap (fun yielded row => .ok (yielded ++ [row])) fuel
          (.new (order.map WrittenPart.files) pageBytes) [] = some (.ok rows)) ∧
        ∀ partition, (∀ part ∈ parts, part.partition = partition) → ∀ memory,
          rewriteGroup indexing parquet partitionOf heap keep id rowGroupSize memory fuel (order.map WrittenPart.files)
            = some (rewritten indexing parquet partitionOf keep id rowGroupSize partition metadataKeys
              parsedKeys rows)) ∧
      ∀ partition rewrite files,
        rewritten indexing parquet partitionOf keep id rowGroupSize partition metadataKeys parsedKeys rows =
          .ok rewrite →
        rewrite.newPart = some files →
        readRowsInRowGroups files 0 files.metadata.rowGroupCount = .ok (rows.filter keep) := by
  have hmem : ∀ row, row ∈ union (parts.flatMap WrittenPart.rows) ↔ ∃ part ∈ parts, row ∈ part.rows := by
    intro row
    rw [mem_union, List.mem_flatMap]
  refine ⟨union (parts.flatMap WrittenPart.rows),
    chosenKeys (parts.flatMap fun part => part.files.metadata.metadataColumns),
    chosenKeys (parts.flatMap fun part => part.files.metadata.parsedColumns), union_sorted _, hmem, ?_, ?_⟩
  · intro order horder fuel hfuel
    have hrows := horder.flatMap_right WrittenPart.rows
    have hunion : union (order.flatMap WrittenPart.rows) = union (parts.flatMap WrittenPart.rows) :=
      union_congr fun row => hrows.mem_iff
    rw [← hrows.length_eq] at hfuel
    constructor
    · intro pageBytes
      rw [drain_eq heap _ (holds_new order pageBytes) hfuel, hunion, foldlM_collect, List.nil_append]
    · intro partition hpartition memory
      have hchosen : ∀ f : WrittenPart indexing parquet partitionOf → List (String × Nat),
          chosenKeys (order.flatMap f) = chosenKeys (parts.flatMap f) := by
        intro f
        simp only [chosenKeys, sumCounts_perm (horder.flatMap_right f)]
      rw [rewriteGroup_eq keep order id heap (fun part hpart => hpartition part (horder.mem_iff.mp hpart)) memory hfuel,
        hunion,
        hchosen, hchosen]
  · intro partition rewrite files hrewritten hfiles
    refine read_rewritten keep id hsize (union_sorted _) (fun row hrow => ?_) hrewritten hfiles
    obtain ⟨part, -, hpart⟩ := (hmem row).mp hrow
    exact part.canonical row hpart

/-- **A part reads back as it was written**, by either writer: two row groups at which to stop split its rows into what
comes before, between and after them, every row with its line and all its metadata. -/
theorem part_reads_back (part : WrittenPart indexing parquet partitionOf) {start stop : Nat} (hle : start ≤ stop)
    (hstop : stop ≤ part.files.metadata.rowGroupCount) :
    ∃ before between after, part.rows = before ++ between ++ after ∧
      readRowsInRowGroups part.files 0 start = .ok before ∧ readRowsInRowGroups part.files start stop = .ok between ∧
      readRowsInRowGroups part.files stop part.files.metadata.rowGroupCount = .ok after := by
  refine ⟨_, _, _, ?_, part.read_eq (Nat.zero_le _) (hle.trans hstop), part.read_eq hle hstop,
    part.read_eq hstop le_rfl⟩
  obtain ⟨length, rfl⟩ := Nat.exists_eq_add_of_le hle
  rw [part.layout.counted.1, ← List.flatten_append, ← List.flatten_append, Cuts.slice, Cuts.slice, Cuts.slice,
    List.drop_zero,
    Nat.sub_zero, Nat.add_sub_cancel_left, ← List.take_add, List.take_of_length_le (List.length_drop).le,
      List.take_append_drop,
    groupsOf_flatten]

end Parts

/-- A part of two tenants, with a column for the metadata and one for the parsed field. -/
def samplePart : WrittenPart sampleIndexing sampleParquet fun _ => "1970-01-01" where
  rows := sampleRows.rows
  sorted := sampleRows.sorted
  canonical := by
    unfold Canonical
    decide +kernel
  rowGroupSize := 2
  positive := by decide
  metadataKeys := hostColumn
  parsedKeys := fieldColumn
  id := "p"
  partition := "1970-01-01"
  files := _
  written := .inr rfl
  loaded := rfl

theorem part_reads_back_sample : ∃ before between after, samplePart.rows = before ++ between ++ after ∧
    readRowsInRowGroups samplePart.files 0 1 = .ok before ∧ readRowsInRowGroups samplePart.files 1 2 = .ok between ∧
    readRowsInRowGroups samplePart.files 2 samplePart.files.metadata.rowGroupCount = .ok after :=
  part_reads_back samplePart (by decide) (by decide)

/-- The part merged with itself, with the rows of one line kept. -/
theorem merge_stores_union_sample : ∃ result, rewriteGroup sampleIndexing sampleParquet (fun _ => "1970-01-01")
    (HeapMerge.Heap.sorted sortKey) (fun row => row.entry.line = "up") "q" 2 0 7 [samplePart.files, samplePart.files]
      = some result := by
  obtain ⟨rows, metadataKeys, parsedKeys, -, -, hmerge, -⟩ := merge_stores_union (HeapMerge.Heap.sorted sortKey)
    [samplePart, samplePart] (fun row => row.entry.line = "up") "q" (show 0 < 2 by decide)
  exact ⟨_, (hmerge _ (.refl _) 7 (by decide)).2 "1970-01-01" (by simp [samplePart]) 0⟩

end Signy.PartWriter
