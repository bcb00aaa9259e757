/-
When a delete request is processed: the rows that it covers, from the buffer through parts and rewrites.

`mark_processed` reads the metadata of the registered parts. A row that is still buffered, or in a part registered
since the metadata was read, is in none of them. A request is done when it is marked if the rows ingested before it have
left the buffers and no part has come since the look.
-/
import Mathlib
import Fn0.Signy.DeleteRequests
import Fn0.Signy.MemTable

namespace Signy

/-- A row with the number of rows that were ingested before it. -/
structure Row where
  tenant : String
  entry : LogEntry
  arrival : Nat
deriving DecidableEq

/-- The rows are the same to a reader. -/
def Row.Copies (row other : Row) : Prop := row.tenant = other.tenant ∧ row.entry = other.entry

instance (row other : Row) : Decidable (row.Copies other) := inferInstanceAs (Decidable (_ ∧ _))

def CompiledRequest.coversRow (compiled : CompiledRequest) (row : Row) : Bool :=
  compiled.request.tenant = row.tenant &&
    compiled.covers row.entry.structuredMetadata row.entry.timestampNs row.entry.line

/-- The time spans of the tenants, from rows sorted by tenant. -/
def tenantSegments : List Row → List TenantSegment
  | [] => []
  | row :: rows =>
    match tenantSegments rows with
    | [] => [⟨row.tenant, row.entry.timestampNs, row.entry.timestampNs⟩]
    | segment :: segments =>
      if segment.tenant = row.tenant then
        ⟨segment.tenant, min segment.minTsNs row.entry.timestampNs, max segment.maxTsNs row.entry.timestampNs⟩ ::
          segments
      else ⟨row.tenant, row.entry.timestampNs, row.entry.timestampNs⟩ :: segment :: segments

structure LogPart where
  rows : List Row
deriving DecidableEq

def LogPart.meta (part : LogPart) : PartMeta := ⟨tenantSegments part.rows⟩

/-- Rows written anew: those to keep, where copies of one row may become one. -/
def Rewrites (keep : Row → Bool) (old new : List Row) : Prop :=
  (∀ row ∈ new, row ∈ old ∧ keep row) ∧ ∀ row ∈ old, keep row → ∃ copy ∈ new, row.Copies copy

instance (keep : Row → Bool) (old new : List Row) : Decidable (Rewrites keep old new) :=
  inferInstanceAs (Decidable (_ ∧ _))

/-- An iteration of the merge loop: the masks that it took, then the metadata it read after the merges. -/
structure Tick where
  masks : List CompiledRequest
  metas : Option (List PartMeta)

/-- The log side of a server, with the number of rows ingested so far and, for each request, the number of rows
ingested when it was submitted. -/
structure Logs where
  registry : DeleteRequests
  memtable : MemTable Row
  parts : List LogPart
  tick : Option Tick
  ingested : Nat
  since : Nat → Nat

namespace Logs

inductive Action
  | ingest (tenant : String) (entries : List LogEntry)
  | submit (compiled : CompiledRequest)
  | cancel (tenant : String) (requestId : Nat)
  | beginFlush
  /-- The visibility switch: the parts are registered and the snapshot is dropped. -/
  | commitFlush (parts : List LogPart)
  | abortFlush
  | tick
  /-- A merge replaces parts by their rows without those that have expired and those that the masks hide. -/
  | rewrite (inputs others outputs : List LogPart) (expired : String → Int → Bool)
  /-- Retention removes a part. -/
  | retire (part : Nat)
  | look
  | mark
  /-- A merge failed, nothing is marked. -/
  | giveUp

def start : Logs := ⟨.empty, .empty, [], none, 0, fun _ => 0⟩

/-- The rows of a batch, in the canonical form. -/
def arrivals (tenant : String) : Nat → List LogEntry → List Row
  | _, [] => []
  | n, entry :: entries =>
    ⟨tenant, { entry with structuredMetadata := canonicalizeStructuredMetadata entry.structuredMetadata }, n⟩ ::
      arrivals tenant (n + 1) entries

/-- The rows that a rewrite keeps. -/
def keeps (masks : List CompiledRequest) (expired : String → Int → Bool) (row : Row) : Bool :=
  !expired row.tenant row.entry.timestampNs && !masks.any (·.coversRow row)

def step (s : Logs) : Action → Option Logs
  | .ingest tenant entries =>
    some { s with
      memtable := s.memtable.insert (arrivals tenant s.ingested entries)
      ingested := s.ingested + entries.length }
  | .submit compiled =>
    if compiled.request.status = .received ∧
        ∀ other ∈ s.registry.requests, other.request.requestId ≠ compiled.request.requestId then
      some { s with
        registry := s.registry.push compiled
        since := Function.update s.since compiled.request.requestId s.ingested }
    else none
  | .cancel tenant requestId => some { s with registry := s.registry.retain tenant requestId }
  | .beginFlush => some { s with memtable := s.memtable.beginFlush }
  | .commitFlush parts =>
    match s.memtable.flushing with
    | none => none
    | some snapshot =>
      if Rewrites (fun _ => true) snapshot (parts.flatMap LogPart.rows) then
        some { s with memtable := s.memtable.commitFlush, parts := s.parts ++ parts }
      else none
  | .abortFlush => s.memtable.flushing.map fun snapshot => { s with memtable := s.memtable.abortFlush snapshot }
  | .tick =>
    match s.tick with
    | none => some { s with tick := some ⟨s.registry.masks, none⟩ }
    | some _ => none
  | .rewrite inputs others outputs expired =>
    match s.tick with
    | some ⟨masks, none⟩ =>
      -- a group of which nothing is kept is left to retention
      if s.parts.Perm (inputs ++ others) ∧ outputs.flatMap LogPart.rows ≠ [] ∧
          Rewrites (keeps masks expired) (inputs.flatMap LogPart.rows) (outputs.flatMap LogPart.rows) then
        some { s with parts := others ++ outputs }
      else none
    | _ => none
  | .retire part => some { s with parts := s.parts.eraseIdx part }
  | .look =>
    match s.tick with
    | some ⟨masks, none⟩ =>
      if masks.isEmpty then some { s with tick := none }
      else some { s with tick := some ⟨masks, some (s.parts.map LogPart.meta)⟩ }
    | _ => none
  | .mark =>
    match s.tick with
    | some ⟨_, some metas⟩ => some { s with registry := s.registry.markProcessed metas, tick := none }
    | _ => none
  | .giveUp => some { s with tick := none }

/-- The rows a request should have removed: covered, and ingested before the request was submitted. -/
def Owes (s : Logs) (compiled : CompiledRequest) (row : Row) : Prop :=
  compiled.coversRow row = true ∧ row.arrival < s.since compiled.request.requestId

instance (s : Logs) (compiled : CompiledRequest) (row : Row) : Decidable (s.Owes compiled row) :=
  inferInstanceAs (Decidable (_ ∧ _))

/-- The rows of the buffer, of the snapshot and of the parts. -/
def rows (s : Logs) : List Row := s.memtable.rows ++ s.parts.flatMap LogPart.rows

/-- **Done.** Of a processed request there is nothing left, in the memtable, in a flushing snapshot or in a part. -/
def Done (s : Logs) : Prop :=
  ∀ compiled ∈ s.registry.requests, compiled.request.status = .processed → ∀ row ∈ s.rows, ¬ s.Owes compiled row

/-- The rows of its tenant that were ingested before the request have left the memtable and the flushing snapshot. -/
def Flushed (s : Logs) (compiled : CompiledRequest) : Prop :=
  ∀ row ∈ s.memtable.rows, row.tenant = compiled.request.tenant → s.since compiled.request.requestId ≤ row.arrival

instance (s : Logs) (compiled : CompiledRequest) : Decidable (s.Flushed compiled) :=
  inferInstanceAs (Decidable (∀ row ∈ s.memtable.rows, _))

/-- The order of events where requests are marked: what was ingested before a request that none of the parts looked at
may hold is flushed, and no part was registered after the look. -/
def Drained (s : Logs) : Action → Prop
  | .mark => ∀ tick ∈ s.tick, ∀ metas ∈ tick.metas, ∀ compiled ∈ s.registry.requests,
      compiled.request.status ≠ .processed → metas.any compiled.mayBeHeldBy = false →
      s.Flushed compiled ∧ ∀ part ∈ s.parts, part.meta ∈ metas
  | _ => True

instance (s : Logs) (action : Action) : Decidable (s.Drained action) := by
  unfold Drained
  split <;> infer_instance

end Logs

/-! ## The metadata of a part -/

/-- Every row lies in a segment of its tenant. -/
theorem exists_tenantSegment {rows : List Row} {row : Row} (h : row ∈ rows) :
    ∃ segment ∈ tenantSegments rows, segment.tenant = row.tenant ∧ segment.minTsNs ≤ row.entry.timestampNs ∧
      row.entry.timestampNs ≤ segment.maxTsNs := by
  induction rows with
  | nil => cases h
  | cons first rows ih =>
    rw [tenantSegments]
    split
    next hnone =>
      rcases List.mem_cons.mp h with rfl | h
      · exact ⟨_, List.mem_singleton.mpr rfl, rfl, le_rfl, le_rfl⟩
      · obtain ⟨segment, hmem, -⟩ := ih h
        rw [hnone] at hmem
        cases hmem
    next segment segments hsegments =>
      rw [hsegments] at ih
      split
      next htenant =>
        rcases List.mem_cons.mp h with rfl | h
        · exact ⟨_, List.mem_cons_self, htenant, min_le_right _ _, le_max_right _ _⟩
        · obtain ⟨found, hmem, ht, hmin, hmax⟩ := ih h
          rcases List.mem_cons.mp hmem with rfl | hmem
          · exact ⟨_, List.mem_cons_self, ht, (min_le_left _ _).trans hmin, hmax.trans (le_max_left _ _)⟩
          · exact ⟨found, List.mem_cons_of_mem _ hmem, ht, hmin, hmax⟩
      next =>
        rcases List.mem_cons.mp h with rfl | h
        · exact ⟨_, List.mem_cons_self, rfl, le_rfl, le_rfl⟩
        · obtain ⟨found, hmem, hfound⟩ := ih h
          exact ⟨found, List.mem_cons_of_mem _ hmem, hfound⟩

/-- A part that holds a row which the request covers says so. -/
theorem mayBeHeldBy_of_covers {part : LogPart} {row : Row} {compiled : CompiledRequest} (hrow : row ∈ part.rows)
    (hcovers : compiled.coversRow row = true) : compiled.mayBeHeldBy part.meta = true := by
  obtain ⟨segment, hmem, htenant, hmin, hmax⟩ := exists_tenantSegment hrow
  simp only [CompiledRequest.coversRow, Bool.and_eq_true, decide_eq_true_eq] at hcovers
  obtain ⟨hown, hcovers⟩ := hcovers
  unfold CompiledRequest.covers at hcovers
  split at hcovers
  · cases hcovers
  next htime =>
    refine List.any_eq_true.mpr ⟨segment, hmem, decide_eq_true ⟨htenant.trans hown.symm, ?_, ?_⟩⟩
    · omega
    · omega

namespace Logs

/-! ## The steps -/

variable {s t : Logs}

/-- What a run keeps: requests are done, and were submitted among the rows ingested so far. -/
structure Sound (s : Logs) : Prop where
  done : s.Done
  since : ∀ compiled ∈ s.registry.requests, s.since compiled.request.requestId ≤ s.ingested

/-- Steps that add no row and leave the requests as they are. -/
theorem Sound.of_rows (h : s.Sound) (hregistry : t.registry = s.registry) (hingested : t.ingested = s.ingested)
    (hsince : t.since = s.since) (hrows : ∀ row ∈ t.rows, row ∈ s.rows) : t.Sound := by
  refine ⟨fun compiled hc hstatus row hrow howes => ?_, ?_⟩
  · rw [hregistry] at hc
    rw [Owes, hsince] at howes
    exact h.done compiled hc hstatus row (hrows row hrow) howes
  · rw [hregistry, hingested, hsince]
    exact h.since

theorem arrival_of_mem_arrivals {tenant : String} {n : Nat} {entries : List LogEntry} {row : Row}
    (h : row ∈ arrivals tenant n entries) : n ≤ row.arrival := by
  induction entries generalizing n with
  | nil => cases h
  | cons entry entries ih =>
    rcases List.mem_cons.mp h with rfl | h
    · exact le_rfl
    · exact (Nat.le_succ n).trans (ih h)

theorem Sound.ingest (h : s.Sound) (tenant : String) (entries : List LogEntry)
    (hstep : s.step (.ingest tenant entries) = some t) : t.Sound := by
  cases hstep
  refine ⟨fun compiled hc hstatus row hrow howes => ?_, fun compiled hc => ?_⟩
  · have hmem : row ∈ s.rows ∨ row ∈ arrivals tenant s.ingested entries := by
      rcases List.mem_append.mp hrow with hrow | hrow
      · rcases List.mem_append.mp ((MemTable.rows_insert _ _).mem_iff.mp hrow) with hrow | hrow
        · exact .inl (List.mem_append_left _ hrow)
        · exact .inr hrow
      · exact .inl (List.mem_append_right _ hrow)
    rcases hmem with hmem | hmem
    · exact h.done compiled hc hstatus row hmem howes
    · have := h.since compiled hc
      have := arrival_of_mem_arrivals hmem
      have := howes.2
      change row.arrival < s.since compiled.request.requestId at this
      omega
  · have := h.since compiled hc
    change s.since compiled.request.requestId ≤ s.ingested + entries.length
    omega

/-- A request is new, and not processed, when it comes. -/
theorem Sound.submit (h : s.Sound) (compiled : CompiledRequest) (hstep : s.step (.submit compiled) = some t) :
    t.Sound := by
  simp only [step] at hstep
  split at hstep
  next hnew =>
    obtain ⟨hstatus, hfresh⟩ := hnew
    cases hstep
    have hother : ∀ other ∈ s.registry.requests,
        Function.update s.since compiled.request.requestId s.ingested other.request.requestId =
          s.since other.request.requestId := fun other ho => Function.update_of_ne (hfresh other ho) _ _
    refine ⟨fun other ho hprocessed row hrow howes => ?_, fun other ho => ?_⟩
    · rcases List.mem_append.mp ho with ho | ho
      · refine h.done other ho hprocessed row hrow ⟨howes.1, ?_⟩
        rw [← hother other ho]
        exact howes.2
      · cases List.mem_singleton.mp ho
        rw [hstatus] at hprocessed
        cases hprocessed
    · rcases List.mem_append.mp ho with ho | ho
      · exact (hother other ho).trans_le (h.since other ho)
      · cases List.mem_singleton.mp ho
        exact (Function.update_self _ _ _).le
  next => cases hstep

theorem Sound.cancel (h : s.Sound) (tenant : String) (requestId : Nat)
    (hstep : s.step (.cancel tenant requestId) = some t) : t.Sound := by
  cases hstep
  exact ⟨fun compiled hc => h.done compiled (List.mem_of_mem_filter hc),
    fun compiled hc => h.since compiled (List.mem_of_mem_filter hc)⟩

theorem Sound.commitFlush (h : s.Sound) (parts : List LogPart) (hstep : s.step (.commitFlush parts) = some t) :
    t.Sound := by
  simp only [step] at hstep
  split at hstep
  · cases hstep
  next snapshot hsnapshot =>
    split at hstep
    next hrewrites =>
      cases hstep
      refine h.of_rows rfl rfl rfl fun row hrow => ?_
      simp only [rows, MemTable.rows, MemTable.commitFlush, Option.getD_none, List.append_nil, List.flatMap_append,
        hsnapshot, Option.getD_some, List.mem_append] at hrow ⊢
      rcases hrow with hrow | hrow | hrow
      · exact .inl (.inl hrow)
      · exact .inr hrow
      · exact .inl (.inr (hrewrites.1 row hrow).1)
    next => cases hstep

theorem Sound.rewrite (h : s.Sound) (inputs others outputs : List LogPart) (expired : String → Int → Bool)
    (hstep : s.step (.rewrite inputs others outputs expired) = some t) : t.Sound := by
  simp only [step] at hstep
  split at hstep
  next masks htick =>
    split at hstep
    next hparts =>
      obtain ⟨hperm, -, hrewrites⟩ := hparts
      cases hstep
      refine h.of_rows rfl rfl rfl fun row hrow => ?_
      have hmem : ∀ {row}, row ∈ s.parts.flatMap LogPart.rows ↔
          row ∈ inputs.flatMap LogPart.rows ∨ row ∈ others.flatMap LogPart.rows := by
        intro row
        rw [(hperm.flatMap_right LogPart.rows).mem_iff, List.flatMap_append, List.mem_append]
      rcases List.mem_append.mp hrow with hrow | hrow
      · exact List.mem_append_left _ hrow
      · refine List.mem_append_right _ (hmem.mpr ?_)
        rw [List.flatMap_append, List.mem_append] at hrow
        exact hrow.symm.imp_left fun hrow => (hrewrites.1 row hrow).1
    next => cases hstep
  next => cases hstep

theorem mark_cases (metas : List PartMeta) (compiled : CompiledRequest) : compiled.mark metas = compiled ∨
    compiled.request.status ≠ .processed ∧ metas.any compiled.mayBeHeldBy = false ∧
      compiled.mark metas = { compiled with request.status := .processed } := by
  unfold CompiledRequest.mark
  split
  · exact .inl rfl
  next hstatus =>
    split
    · exact .inl rfl
    next hheld => exact .inr ⟨hstatus, Bool.eq_false_of_not_eq_true hheld, rfl⟩

/-- When no part has come since the look, a row that the request covers and that none of the parts can hold is
buffered. -/
theorem mem_memtable {metas : List PartMeta} {compiled : CompiledRequest} {row : Row}
    (hlooked : ∀ part ∈ s.parts, part.meta ∈ metas) (hheld : metas.any compiled.mayBeHeldBy = false)
    (hrow : row ∈ s.rows)
    (hcovers : compiled.coversRow row = true) : row ∈ s.memtable.rows := by
  rcases List.mem_append.mp hrow with hrow | hrow
  · exact hrow
  · obtain ⟨part, hpart, hrow⟩ := List.mem_flatMap.mp hrow
    have hmay := mayBeHeldBy_of_covers hrow hcovers
    exact absurd hmay (List.any_eq_false.mp hheld part.meta (hlooked part hpart))

theorem Sound.mark (h : s.Sound) (hdrained : s.Drained .mark) (hstep : s.step .mark = some t) : t.Sound := by
  simp only [step] at hstep
  split at hstep
  next masks metas htick =>
    cases hstep
    have hmarked : ∀ compiled ∈ (s.registry.markProcessed metas).requests, compiled ∈ s.registry.requests ∨
        ∃ old ∈ s.registry.requests, old.request.status ≠ .processed ∧ metas.any old.mayBeHeldBy = false ∧
          compiled = { old with request.status := .processed } := by
      intro compiled hc
      unfold DeleteRequests.markProcessed at hc
      split at hc
      · exact .inl hc
      · obtain ⟨old, ho, rfl⟩ := List.mem_map.mp hc
        rcases mark_cases metas old with heq | ⟨hstatus, hheld, heq⟩
        · rw [heq]
          exact .inl ho
        · exact .inr ⟨old, ho, hstatus, hheld, heq⟩
    refine ⟨fun compiled hc hstatus row hrow howes => ?_, fun compiled hc => ?_⟩
    · rcases hmarked compiled hc with hc | ⟨old, ho, hnew, hheld, rfl⟩
      · exact h.done compiled hc hstatus row hrow howes
      · obtain ⟨hcovers, hbefore⟩ : s.Owes old row := howes
        obtain ⟨hflushed, hlooked⟩ := hdrained _ htick metas rfl old ho hnew hheld
        have htenant : row.tenant = old.request.tenant := by
          simp only [CompiledRequest.coversRow, Bool.and_eq_true, decide_eq_true_eq] at hcovers
          exact hcovers.1.symm
        have hafter := hflushed row (mem_memtable hlooked hheld hrow hcovers) htenant
        omega
    · rcases hmarked compiled hc with hc | ⟨old, ho, -, -, rfl⟩
      · exact h.since compiled hc
      · exact h.since old ho
  next => cases hstep

theorem Sound.step {action : Action} (h : s.Sound) (hdrained : s.Drained action) (hstep : s.step action = some t) :
    t.Sound := by
  cases action with
  | ingest tenant entries => exact h.ingest tenant entries hstep
  | submit compiled => exact h.submit compiled hstep
  | cancel tenant requestId => exact h.cancel tenant requestId hstep
  | beginFlush =>
    cases hstep
    exact h.of_rows rfl rfl rfl fun _ hrow => hrow
  | commitFlush parts => exact h.commitFlush parts hstep
  | abortFlush =>
    obtain ⟨snapshot, hsnapshot, rfl⟩ := Option.map_eq_some_iff.mp hstep
    refine h.of_rows rfl rfl rfl fun row hrow => ?_
    rwa [rows, MemTable.rows_abortFlush hsnapshot] at hrow
  | tick =>
    simp only [Logs.step] at hstep
    split at hstep
    · cases hstep
      exact h.of_rows rfl rfl rfl fun _ hrow => hrow
    · cases hstep
  | rewrite inputs others outputs expired => exact h.rewrite inputs others outputs expired hstep
  | retire part =>
    cases hstep
    refine h.of_rows rfl rfl rfl fun row hrow => ?_
    rcases List.mem_append.mp hrow with hrow | hrow
    · exact List.mem_append_left _ hrow
    · obtain ⟨old, hold, hrow⟩ := List.mem_flatMap.mp hrow
      exact List.mem_append_right _ (List.mem_flatMap.mpr ⟨old, List.mem_of_mem_eraseIdx hold, hrow⟩)
  | look =>
    simp only [Logs.step] at hstep
    split at hstep
    · split at hstep <;> cases hstep <;> exact h.of_rows rfl rfl rfl fun _ hrow => hrow
    · cases hstep
  | mark => exact h.mark hdrained hstep
  | giveUp =>
    cases hstep
    exact h.of_rows rfl rfl rfl fun _ hrow => hrow

/-- **A processed request is done**, in every run that marks requests only when the rows ingested before them have left
the buffers and no part has come since the look. -/
theorem processed_done (h : Steps.Reach Logs.step Drained start s) : s.Done := by
  refine (h.invariant (P := Sound) ⟨?_, ?_⟩ fun _ _ _ hs hdrained hstep => hs.step hdrained hstep).done
  · rintro _ ⟨⟩
  · rintro _ ⟨⟩

/-- The first second of an application. -/
def apiRequest : CompiledRequest :=
  ⟨⟨7, "acme", "api", 0, 1000000000, 0, .received⟩, ⟨[⟨"app", .eq, "api", none⟩], [], []⟩⟩

def apiEntry : LogEntry := ⟨5, "line", [("app", "api")]⟩

def laterEntry : LogEntry := ⟨2000000000, "later", []⟩

def apiRow : Row := ⟨"acme", apiEntry, 0⟩

def laterRow : Row := ⟨"acme", laterEntry, 1⟩

/-- Both rows are flushed before the tick, and the rewrite drops the one that the request covers. -/
def drainedRun : List Action :=
  [.ingest "acme" [apiEntry, laterEntry], .submit apiRequest, .beginFlush, .commitFlush [⟨[apiRow, laterRow]⟩], .tick,
    .rewrite [⟨[apiRow, laterRow]⟩] [] [⟨[laterRow]⟩] (fun _ _ => false), .look, .mark]

theorem drained_run_done : ∃ s, Steps.along Logs.step Drained drainedRun start = some s ∧
    (∀ compiled ∈ s.registry.requests, compiled.request.status = .processed) ∧ s.Done := by
  have hrun : (Steps.along Logs.step Drained drainedRun start).any (fun s =>
      decide (∀ compiled ∈ s.registry.requests, compiled.request.status = .processed)) = true := by
    decide +kernel
  obtain ⟨s, hs, hstatus⟩ := Steps.exists_of_any hrun
  exact ⟨s, hs, of_decide_eq_true hstatus, processed_done (Steps.Reach.start.along hs)⟩

/-- **Processed too early.** The row is in the memtable when the request comes, and still there when the tick finds no
part that could hold it. -/
theorem processed_while_buffered : ∃ s, Steps.Reach Logs.step (fun _ _ => True) start s ∧
    (∃ compiled ∈ s.registry.requests, compiled.request.status = .processed ∧ apiRow ∈ s.memtable.inner ∧
      s.Owes compiled apiRow) ∧ ¬ s.Done := by
  have hrun : (Steps.along Logs.step (fun _ _ => True)
      [.ingest "acme" [apiEntry], .submit apiRequest, .tick, .look, .mark] start).any (fun s =>
        s.registry.requests.any fun compiled =>
          decide (compiled.request.status = .processed ∧ apiRow ∈ s.memtable.inner ∧ s.Owes compiled apiRow)) =
            true := by
    decide +kernel
  obtain ⟨s, hreach, hshown⟩ := Steps.exists_reach _ hrun
  obtain ⟨compiled, hc, heq⟩ := List.any_eq_true.mp hshown
  obtain ⟨hstatus, hrow, howes⟩ := of_decide_eq_true heq
  refine ⟨s, hreach, ⟨compiled, hc, hstatus, hrow, howes⟩, fun hdone => ?_⟩
  exact hdone compiled hc hstatus apiRow (List.mem_append_left _ (List.mem_append_left _ hrow)) howes

end Logs

end Signy
