/-
The run of a journal.

Every action takes a journal that holds its past to one that holds it, with the records the action appended.
`compact_checkpoint` does so unless one of its calls fails after the rename; a crash there is harmless.
-/
import Mathlib
import Fn0.Signy.JournalStart

namespace Signy

open Eff

variable {Row : Type} {decode : Decode Row} {crc32 : Bytes → UInt32}

variable (crc32) in
/-- A process goes with the files: its writer is at the end of the WAL, and the offset the flush loop has is
that of the first `taken` records. -/
structure Running (sh : Shape decode) (taken : Nat) (files : JournalFiles) (process : Process Row) : Prop where
  kept : sh.Kept crc32 True files
  writer : ∀ w, process.writer = some w → sh.tail = [] ∧ w = openWriter files
  flush : ∀ offset, process.flush.offset? = some offset → Boundary crc32 sh.history sh.cut offset taken

variable (crc32) in
/-- Nothing of the past that is to be kept is lost. -/
def Past.Held (past : Past decode) (taken : Nat) (j : Journal Row) : Prop :=
  match j.process with
  | some process => ∃ sh : Shape decode, sh.toPast = past ∧ Running crc32 sh taken j.files process
  | none => past.history = [] ∧ past.marks none ∧ Blank j.files ∨ past.Stands crc32 j.files

section Actions

variable {past : Past decode} {taken : Nat} {j : Journal Row} {process : Process Row}

theorem Past.Held.running (h : past.Held crc32 taken j) (hj : j.process = some process) :
    ∃ sh : Shape decode, sh.toPast = past ∧ Running crc32 sh taken j.files process := by
  rw [Past.Held, hj] at h
  exact h

theorem Past.Held.of_stopped (h : past.Held crc32 taken j) (hj : j.process = none) (taken' : Nat) :
    past.Held crc32 taken' j := by
  rw [Past.Held, hj] at h ⊢
  exact h

theorem Running.safe {sh : Shape decode} {files : JournalFiles} (h : Running crc32 sh taken files process) :
    Safe crc32 sh.toPast files := h.kept.safe

theorem Past.Held.crash (h : past.Held crc32 taken j) (mask : List Bool) (taken' : Nat) :
    past.Held crc32 taken' (crash mask j) := by
  unfold Past.Held at h
  split at h
  next process hj =>
    obtain ⟨sh, rfl, hrunning⟩ := h
    exact .inr (hrunning.safe.crash mask)
  next hj =>
    rcases h with ⟨hhistory, hmarks, hblank⟩ | ⟨sh, rfl, hkept⟩
    · exact .inl ⟨hhistory, hmarks, hblank.crash mask⟩
    · exact .inr (hkept.safe.crash mask)

/-! ## Batches -/

/-- More may be gone, and more may be in the file of the marks. -/
theorem Past.Held.weaken (h : past.Held crc32 taken j) {retired : Nat} (hretired : past.retired ≤ retired)
    {marks : Option Bytes → Prop} (hmarks : ∀ bytes, past.marks bytes → marks bytes) :
    Past.Held crc32 ⟨past.history, retired, marks⟩ taken j := by
  unfold Past.Held at h ⊢
  split at h
  next process hj =>
    obtain ⟨sh, rfl, hrunning⟩ := h
    exact ⟨{ sh with retired, marks }, rfl, hrunning.kept.retire hretired hmarks, hrunning.writer, hrunning.flush⟩
  next hj =>
    rcases h with ⟨hhistory, hnone, hblank⟩ | ⟨sh, rfl, hkept⟩
    · exact .inl ⟨hhistory, hmarks _ hnone, hblank⟩
    · exact .inr ⟨{ sh with retired, marks }, rfl, hkept.retire hretired hmarks⟩

theorem BatchOutcome.within_failed {outcome outcome' : BatchOutcome} {length : Nat}
    (h : outcome.within length = outcome') (hne : outcome' ≠ .failed) : length ≤ maxFileLen := by
  unfold BatchOutcome.within at h
  split at h
  · exact absurd h.symm hne
  · omega

/-- Records are appended to a WAL that is whole, and maybe a part of one more. -/
theorem Running.append {sh : Shape decode} {files : JournalFiles} (h : Running crc32 sh taken files process)
    (htail : sh.tail = []) {entries : List (Entry decode)} {tail buffer : Bytes} (htorn : Torn crc32 tail)
    (hbuffer : buffer = frames crc32 entries ++ tail) {marks : Option Bytes → Prop}
    (hmarks : ∀ bytes, sh.marks bytes → marks bytes)
    (hshort : (files.content sh.inode ++ buffer).length ≤ maxFileLen) {process' : Process Row}
    (hflush : process'.flush = process.flush)
    (hwriter : ∀ w, process'.writer = some w → tail = [] ∧
      w = ⟨sh.inode, size crc32 (sh.history.drop sh.cut) + size crc32 entries⟩) :
    Past.Held crc32 ⟨sh.history ++ entries, sh.retired, marks⟩ taken
      { files := files.setContent sh.inode (files.content sh.inode ++ buffer), process := some process' } := by
  have hdrop : frames crc32 ((sh.history ++ entries).drop sh.cut) = frames crc32 (sh.history.drop sh.cut) ++
      frames crc32 entries := by
    rw [List.drop_append_of_le_length h.kept.wal.cut_le, frames_append]
  have hbytes : files.content sh.inode ++ buffer = frames crc32 ((sh.history ++ entries).drop sh.cut) ++ tail := by
    rw [hbuffer, h.kept.wal.bytes, htail, List.append_nil, hdrop, List.append_assoc]
  rw [hbytes] at hshort ⊢
  have hkept := h.kept.write ⟨sh.history ++ entries, sh.retired, marks⟩ tail rfl le_rfl hmarks htorn hshort
  refine ⟨_, rfl, hkept, fun w hw => ?_, fun offset hoffset => ?_⟩
  · obtain ⟨hnil, rfl⟩ := hwriter w hw
    refine ⟨hnil, ?_⟩
    rw [hkept.openWriter]
    simp only [size, hdrop, hnil, List.length_append, List.length_nil, Nat.add_zero]
  · rw [hflush] at hoffset
    exact (h.flush offset hoffset).append entries

/-- A batch appends its records, or none of them, or some of them and the writer is gone. -/
theorem Past.Held.batch (h : past.Held crc32 taken j) (now : Nat) (batch : List (AppendItem decode))
    (outcome : BatchOutcome) {marks : Option Bytes → Prop} (hmarks : ∀ bytes, past.marks bytes → marks bytes) :
    Past.Held crc32 ⟨past.history ++ j.written crc32 (.batch now batch outcome), past.retired, marks⟩ taken
      (writeBatch crc32 now batch outcome j) := by
  have hweak := h.weaken le_rfl hmarks
  rcases hj : j.process with _ | process
  · simpa [writeBatch, Journal.written, hj] using hweak
  rcases hw : process.writer with _ | w
  · simpa [writeBatch, Journal.written, hj, hw] using hweak
  obtain ⟨sh, rfl, hrunning⟩ := h.running hj
  obtain ⟨htail, rfl⟩ := hrunning.writer w hw
  have hwal := hrunning.kept.openWriter
  rw [htail, List.length_nil, Nat.add_zero] at hwal
  simp only [writeBatch, Journal.written, hj, hw, hwal, Option.bind_some]
  rcases hout : outcome.within ((j.files.content sh.inode).length + (frames crc32 (batchEntries batch)).length) with
    _ | _ | bytes
  · have hshort := BatchOutcome.within_failed hout (by decide)
    exact hrunning.append htail (.inl rfl) (List.append_nil _).symm hmarks (by simpa using hshort) rfl
      fun w hw => ⟨rfl, by simpa [size] using hw.symm⟩
  · have hsame : (j.files.content sh.inode).take (size crc32 (sh.history.drop sh.cut)) =
        j.files.content sh.inode := by
      rw [hrunning.kept.wal.bytes, htail, List.append_nil, size, List.take_length]
    simp only [hsame, Names.setContent, Function.update_eq_self, List.append_nil]
    rw [← hj]
    exact hweak
  · have hshort := BatchOutcome.within_failed hout (by simp)
    obtain ⟨tail, htorn, htake⟩ := take_frames crc32 (batchEntries batch) bytes
    refine hrunning.append htail htorn htake hmarks ?_ rfl (by simp)
    simp only [List.length_append, List.length_take] at hshort ⊢
    omega

/-! ## Checkpoints -/

/-- The process goes on with files that go with the same shape. -/
theorem Running.move {sh : Shape decode} {files files' : JournalFiles} (h : Running crc32 sh taken files process)
    (hkept : sh.Kept crc32 True files') {process' : Process Row} (hwriter : process'.writer = process.writer)
    (hflush : ∀ offset, process'.flush.offset? = some offset → process.flush.offset? = some offset) :
    Running crc32 sh taken files' process' := by
  refine ⟨hkept, fun w hw => ?_, fun offset hoffset => h.flush offset (hflush offset hoffset)⟩
  rw [hkept.openWriter, ← h.kept.openWriter]
  exact h.writer w (hwriter ▸ hw)

theorem Running.retake {sh : Shape decode} {files : JournalFiles} (h : Running crc32 sh taken files process)
    (hidle : process.flush = .idle) (taken' : Nat) : Running crc32 sh taken' files process :=
  ⟨h.kept, h.writer, fun offset hoffset => by simp [hidle, Flush.offset?] at hoffset⟩

theorem checkpoint_of_busy (h : j.flush ≠ .idle) (now : Nat) (fault : Option Fault) :
    Signy.checkpoint crc32 now fault j = j := by
  unfold Signy.checkpoint
  split
  · rfl
  next process hj =>
    rw [Journal.flush, hj] at h
    split
    next hflush => exact absurd hflush h
    next => rfl

/-- A checkpoint hands out the end of the WAL. -/
theorem Past.Held.checkpoint (h : past.Held crc32 taken j) (now : Nat) (fault : Option Fault)
    (hmarks : ∀ process w, j.process = some process → process.writer = some w →
      past.marks (some ((process.marks.retain now).image crc32))) :
    past.Held crc32 (if j.flush = .idle then past.history.length else taken) (Signy.checkpoint crc32 now fault j) := by
  rcases hj : j.process with _ | process
  · simpa [Signy.checkpoint, hj] using h.of_stopped hj _
  obtain ⟨sh, rfl, hrunning⟩ := h.running hj
  rw [Journal.flush, hj]
  dsimp only
  by_cases hidle : process.flush = .idle
  · rw [if_pos hidle]
    rcases hw : process.writer with _ | w
    · simp only [Signy.checkpoint, hj, hw]
      rw [Past.Held, hj]
      exact ⟨sh, rfl, hrunning.retake hidle _⟩
    obtain ⟨htail, rfl⟩ := hrunning.writer w hw
    have hsync : Sat (call .syncWal id) ⟨j.files, fault⟩ (fun _ m => m = ⟨j.files, fault⟩)
        (fun _ m => sh.Kept crc32 True m.files ∧ fault ≠ none) := sat_call_keeps hrunning.kept hrunning.kept
    simp only [Signy.checkpoint, hj, hw, hidle]
    rcases hexec : (call .syncWal id).exec ⟨j.files, fault⟩ with ⟨e | _, m⟩
    · have hkept := (hsync.of_error hexec).1
      exact ⟨sh, rfl, hkept, by simp, fun offset hoffset => by simp [Flush.offset?] at hoffset⟩
    · obtain rfl := hsync.of_ok hexec
      have hreplace := hrunning.kept.replace (show FileName.marks ≠ .wal by decide) (by simp) (by simp) (by simp)
        fun _ => hmarks process _ hj hw
      have hstored : Sat (replaceFile .marks .marks ((process.marks.retain now).image crc32)) ⟨j.files, fault⟩
          (fun _ m => sh.Kept crc32 True m.files) (fun _ m => sh.Kept crc32 True m.files) :=
        (sat_replaceFile hrunning.kept hreplace fun _ h => h.sync).mono (fun _ _ h => h ▸ hreplace.sync)
          fun _ _ h => h.1
      have hkept := tracks_outcome hstored
      refine ⟨sh, rfl, hkept, fun w hw => ⟨htail, ?_⟩, fun offset hoffset => ?_⟩
      · rw [hkept.openWriter, ← hrunning.kept.openWriter]
        exact (Option.some.inj hw).symm
      · simp only [Flush.offset?, Option.some.injEq, hrunning.kept.openWriter, htail, List.length_nil,
          Nat.add_zero] at hoffset
        rw [← hoffset]
        exact .full hrunning.kept.wal.cut_le
  · rw [if_neg hidle]
    have hbusy : j.flush ≠ .idle := by rwa [Journal.flush, hj]
    rwa [checkpoint_of_busy hbusy]

theorem Past.Held.abandon (h : past.Held crc32 taken j) : past.Held crc32 taken (Signy.abandon j) := by
  rcases hj : j.process with _ | process
  · simpa [Signy.abandon, hj] using h
  obtain ⟨sh, rfl, hrunning⟩ := h.running hj
  rcases hflush : process.flush with _ | offset | offset
  · simpa [Signy.abandon, hj, hflush] using h
  · simp only [Signy.abandon, hj, hflush]
    exact ⟨sh, rfl, hrunning.kept, hrunning.writer, fun offset hoffset => by simp [Flush.offset?] at hoffset⟩
  · simpa [Signy.abandon, hj, hflush] using h

/-! ## Retiring -/

/-- What may be gone once the flush loop has asked to retire the offset it has. -/
def Past.retire (past : Past decode) (taken : Nat) (marks : Option Bytes → Prop) (j : Journal Row) : Past decode :=
  ⟨past.history, if j.flush = .idle then past.retired else max past.retired taken, marks⟩

theorem Past.Held.retire (h : past.Held crc32 taken j) {marks : Option Bytes → Prop}
    (hmarks : ∀ bytes, past.marks bytes → marks bytes) : (past.retire taken marks j).Held crc32 taken j := by
  refine h.weaken ?_ hmarks
  split
  · exact le_rfl
  · exact le_max_left _ _

theorem taken_le_retire (past : Past decode) (taken : Nat) (marks : Option Bytes → Prop) (hj : j.process = some process)
    {offset : Nat} (hoffset : process.flush.offset? = some offset) : taken ≤ (past.retire taken marks j).retired := by
  rw [Past.retire, Journal.flush, hj]
  dsimp only
  rw [if_neg (by intro hidle; simp [hidle, Flush.offset?] at hoffset)]
  exact le_max_right _ _

theorem Past.Held.setCheckpoint (h : past.Held crc32 taken j) (fault : Option Fault) {marks : Option Bytes → Prop}
    (hmarks : ∀ bytes, past.marks bytes → marks bytes) :
    (past.retire taken marks j).Held crc32 taken (Signy.setCheckpoint fault j) := by
  have hretire := h.retire hmarks
  rcases hj : j.process with _ | process
  · simpa [Signy.setCheckpoint, hj] using hretire
  rcases hoffset : process.flush.offset? with _ | offset
  · simpa [Signy.setCheckpoint, hj, hoffset] using hretire
  obtain ⟨sh, hpast, hrunning⟩ := hretire.running hj
  have hle := taken_le_retire past taken marks hj hoffset
  have hgood : sh.Good crc32 offset := ⟨taken, by rwa [← hpast] at hle, hrunning.flush offset hoffset⟩
  have hsat := sat_writeCheckpoint (m := ⟨j.files, fault⟩) hrunning.kept .set hgood
  simp only [Signy.setCheckpoint, hj, hoffset]
  rcases hexec : (writeCheckpoint .set offset).exec ⟨j.files, fault⟩ with ⟨e | _, m⟩
  · exact ⟨sh, hpast, hrunning.move (hsat.of_error hexec).1 rfl fun _ h => h ▸ hoffset⟩
  · exact ⟨sh, hpast, hrunning.move (hsat.of_ok hexec).1 rfl (by simp [Flush.offset?])⟩

/-- A compaction holds the past, and when a call fails late so does every crash. -/
theorem Past.Held.compactCheckpoint (h : past.Held crc32 taken j) (fault : Option Fault) (reopens : Bool)
    {marks : Option Bytes → Prop} (hmarks : ∀ bytes, past.marks bytes → marks bytes) :
    (past.retire taken marks j).Held crc32 taken (Signy.compactCheckpoint fault reopens j) ∨
      Late fault ∧ Safe crc32 (past.retire taken marks j) (Signy.compactCheckpoint fault reopens j).files := by
  have hretire := h.retire hmarks
  rcases hj : j.process with _ | process
  · exact .inl (by simpa [Signy.compactCheckpoint, hj] using hretire)
  rcases hoffset : process.flush.offset? with _ | offset
  · exact .inl (by simpa [Signy.compactCheckpoint, hj, hoffset] using hretire)
  obtain ⟨sh, hpast, hrunning⟩ := hretire.running hj
  rcases hw : process.writer with _ | w
  · simp only [Signy.compactCheckpoint, hj, hoffset, hw]
    exact .inl ⟨sh, hpast, hrunning.move hrunning.kept hw.symm fun _ h => h ▸ hoffset⟩
  obtain ⟨htail, rfl⟩ := hrunning.writer w hw
  have hle := taken_le_retire past taken marks hj hoffset
  rw [← hpast] at hle
  have hsat := sat_compactWal (m := ⟨j.files, fault⟩) hrunning.kept htail (hrunning.flush offset hoffset) hle
  simp only [Signy.compactCheckpoint, hj, hoffset, hw]
  rcases hexec : (compactWal offset (openWriter j.files)).exec ⟨j.files, fault⟩ with ⟨e | w, m⟩
  · rcases hsat.of_error hexec with hkept | ⟨hlate, hsafe⟩
    · refine .inl ⟨sh, hpast, hkept, fun w hw => ⟨htail, ?_⟩, fun o ho => ?_⟩
      · cases reopens
        · simp at hw
        · simpa using hw.symm
      · simp only [Flush.offset?, Option.some.injEq] at ho
        exact ho ▸ hrunning.flush offset hoffset
    · exact .inr ⟨hlate, hpast ▸ hsafe⟩
  · obtain ⟨sh', hpast', htail', hkept', rfl⟩ := hsat.of_ok hexec
    exact .inl ⟨sh', hpast'.trans hpast, hkept', fun w hw =>
      ⟨htail', (Option.some.inj hw).symm⟩, by simp [Flush.offset?]⟩

/-! ## Starts -/

theorem Past.Held.start (h : past.Held crc32 taken j) (now : Nat) (fault : Option Fault) :
    past.Held crc32 taken (Signy.start crc32 decode now fault j) := by
  rcases hj : j.process with _ | process
  · rw [Past.Held, hj] at h
    simp only [Signy.start, hj]
    rcases h with ⟨hhistory, hmarks, hblank⟩ | ⟨sh, rfl, hkept⟩
    · have hsat := sat_recover_blank crc32 (m := ⟨j.files, fault⟩) hblank hhistory hmarks now
      rcases hexec : (recover decode crc32 now).exec ⟨j.files, fault⟩ with ⟨e | ⟨w, replayed⟩, m⟩
      · exact .inl ⟨hhistory, hmarks, (hsat.of_error hexec).1⟩
      · obtain ⟨⟨sh, hpast, htail, hkept⟩, rfl, -⟩ := hsat.of_ok hexec
        exact ⟨sh, hpast, hkept, fun w hw => ⟨htail, (Option.some.inj hw).symm⟩, by simp [Flush.offset?]⟩
    · have hsat := sat_recover (m := ⟨j.files, fault⟩) hkept now
      rcases hexec : (recover decode crc32 now).exec ⟨j.files, fault⟩ with ⟨e | ⟨w, replayed⟩, m⟩
      · exact .inr (hsat.of_error hexec).1
      · obtain ⟨⟨sh', hpast, htail, hkept'⟩, rfl, -⟩ := hsat.of_ok hexec
        exact ⟨sh', hpast, hkept', fun w hw => ⟨htail, (Option.some.inj hw).symm⟩, by simp [Flush.offset?]⟩
  · simpa [Signy.start, hj] using h

end Actions

/-! ## Runs -/

/-- The process does not go on when a call of `compact_wal` fails once the replacement may be in place. -/
def Event.Sparing (event : Event decode) : Prop :=
  ∀ fault reopens, event.action = .compactCheckpoint fault reopens → Late fault → event.down ≠ none

/-- What has happened in a run, with no regard to the marks. -/
def Traced.past (t : Traced decode) : Past decode := ⟨t.history, t.retired, fun _ => True⟩

variable (crc32) in
def Traced.Held (t : Traced decode) : Prop := t.past.Held crc32 t.taken t.journal

theorem Traced.Held.act {t : Traced decode} (h : t.Held crc32) {event : Event decode} (hspare : event.Sparing) :
    (t.next crc32 event).past.Held crc32 (t.next crc32 event).taken (t.journal.act crc32 event.action) ∨
      event.down ≠ none ∧ Safe crc32 (t.next crc32 event).past (t.journal.act crc32 event.action).files := by
  obtain ⟨action, down⟩ := event
  have hpast : t.past.Held crc32 t.taken t.journal := h
  have hnone : t.history ++ ([] : List (Entry decode)) = t.history := List.append_nil _
  cases action with
  | batch now batch outcome => exact .inl (hpast.batch now batch outcome fun _ h => h)
  | checkpoint now fault =>
    simp only [Traced.next, Traced.past, Journal.written, hnone]
    exact .inl (hpast.checkpoint now fault fun _ _ _ _ => trivial)
  | abandon =>
    simp only [Traced.next, Traced.past, Journal.written, hnone]
    exact .inl hpast.abandon
  | setCheckpoint fault =>
    simp only [Traced.next, Traced.past, Journal.written, hnone]
    exact .inl (hpast.setCheckpoint fault fun _ h => h)
  | compactCheckpoint fault reopens =>
    simp only [Traced.next, Traced.past, Journal.written, hnone]
    rcases hpast.compactCheckpoint fault reopens fun _ h => h with hheld | ⟨hlate, hsafe⟩
    · exact .inl hheld
    · exact .inr ⟨hspare fault reopens rfl hlate, hsafe⟩
  | start now fault =>
    simp only [Traced.next, Traced.past, Journal.written, hnone]
    exact .inl (hpast.start now fault)

theorem Traced.Held.next {t : Traced decode} (h : t.Held crc32) {event : Event decode} (hspare : event.Sparing) :
    (t.next crc32 event).Held crc32 := by
  have hact := h.act hspare
  have hjournal : (t.next crc32 event).journal = t.journal.next crc32 event := rfl
  unfold Traced.Held
  rw [hjournal, Journal.next]
  rcases hdown : event.down with _ | mask
  · exact hact.resolve_right fun hright => hright.1 hdown
  · rcases hact with hheld | ⟨-, hsafe⟩
    · exact hheld.crash mask _
    · exact .inr (hsafe.crash mask)

variable (crc32) in
theorem Traced.held_fresh : (Traced.fresh : Traced decode).Held crc32 := by
  refine .inl ⟨rfl, trivial, fun v hv name i hi => ?_⟩
  rw [Names.views_of_synced rfl hv] at hi
  cases hi

theorem Traced.Held.run {t : Traced decode} (h : t.Held crc32) (events : List (Event decode))
    (hspare : ∀ event ∈ events, event.Sparing) : (t.run crc32 events).Held crc32 := by
  induction events generalizing t with
  | nil => exact h
  | cons event events ih =>
    exact ih (h.next (hspare event List.mem_cons_self)) fun e he => hspare e (List.mem_cons_of_mem _ he)

/-! ## What comes back -/

variable (crc32) in
/-- After a crash a start succeeds. It puts back the records in the order they were appended, all but some of the
first, and those were to be retired. -/
def Traced.Recovers (t : Traced decode) (mask : List Bool) (now : Nat) : Prop :=
  ∃ writer replayed m, (recover decode crc32 now).exec ⟨t.journal.files.crash mask, none⟩ =
    (.ok (writer, replayed), m) ∧
    ∃ n ≤ t.retired, replayed.memtable = (t.history.drop n).flatMap Entry.rows

variable (crc32) in
/-- The offset the flush loop has is one of the WAL that is there: it stands behind the first `taken` records. -/
def Traced.Measured (t : Traced decode) : Prop :=
  ∀ process offset, t.journal.process = some process → process.flush.offset? = some offset →
    ∃ cut tail, t.journal.files.read .wal = some (frames crc32 (t.history.drop cut) ++ tail) ∧
      Boundary crc32 t.history cut offset t.taken

theorem memtable_foldl_add (now : Nat) (entries : List (Entry decode)) (state : Replayed Row) :
    (entries.foldl (Replayed.add now) state).memtable = state.memtable ++ entries.flatMap Entry.rows := by
  induction entries generalizing state with
  | nil => simp
  | cons entry entries ih => simp [ih, Replayed.add]

theorem Traced.Held.recovers {t : Traced decode} (h : t.Held crc32) (mask : List Bool) (now : Nat) :
    t.Recovers crc32 mask now := by
  have hcrash : t.past.Held crc32 t.taken (crash mask t.journal) := Past.Held.crash h mask _
  rcases hcrash with ⟨hhistory, hmarks, hblank⟩ | ⟨sh, hpast, hkept⟩
  · have hsat := sat_recover_blank crc32 (m := ⟨t.journal.files.crash mask, none⟩) hblank hhistory hmarks now
    obtain ⟨⟨writer, replayed⟩, m, hexec, -, -, rfl⟩ := (hsat.mono (fun _ _ h => h) fun _ _ h => h.2 rfl).exists_ok
    refine ⟨writer, _, m, hexec, 0, Nat.zero_le _, ?_⟩
    simp [show t.history = [] from hhistory]
  · have hsat := sat_recover (m := ⟨t.journal.files.crash mask, none⟩) hkept now
    obtain ⟨⟨writer, replayed⟩, m, hexec, -, -, n, hn, rfl⟩ :=
      (hsat.mono (fun _ _ h => h) fun _ _ h => h.2 rfl).exists_ok
    have hhistory : sh.history = t.history := congrArg Past.history hpast
    have hretired : sh.retired = t.retired := congrArg Past.retired hpast
    refine ⟨writer, _, m, hexec, n, hretired ▸ hn, ?_⟩
    rw [memtable_foldl_add, hhistory, List.nil_append]

theorem Traced.Held.measured {t : Traced decode} (h : t.Held crc32) : t.Measured crc32 := by
  intro process offset hj hoffset
  obtain ⟨sh, hpast, hrunning⟩ := Past.Held.running h hj
  have hhistory : sh.history = t.history := congrArg Past.history hpast
  exact ⟨sh.cut, sh.tail, hhistory ▸ hrunning.kept.read_wal, hhistory ▸ hrunning.flush offset hoffset⟩

/-- **What a crash leaves.** When no process goes on after a call of `compact_wal` that failed once the replacement
may be in place, a start after any crash puts back every record that was not to be retired. -/
theorem recovers_of_sparing (crc32 : Bytes → UInt32) (events : List (Event decode))
    (hspare : ∀ event ∈ events, event.Sparing) :
    (Traced.fresh.run crc32 events).Measured crc32 ∧
      ∀ mask now, (Traced.fresh.run crc32 events).Recovers crc32 mask now := by
  have hheld := (Traced.held_fresh crc32).run events hspare
  exact ⟨hheld.measured, hheld.recovers⟩

section Example

/-- The payload is the one row. -/
def echo : Decode Bytes := fun _ _ payload => .ok [payload]

def echoRecord (byte : UInt8) : Record echo where
  tenant := ⟨"t", by decide⟩
  kind := .otlpLogs
  payload := [byte]
  rows := [[byte]]
  decoded := rfl
  fits := by
    rw [List.length_singleton]
    decide

def echoBatch (byte : UInt8) : Action echo := .batch 0 [⟨some (echoRecord byte), none⟩] .done

/-- A record is flushed and another appended; the intent of the compaction is unlinked and the sync of the directory
fails; the flush loop asks again. -/
def lateFailure : List (Event echo) :=
  [⟨.start 0 none, none⟩, ⟨echoBatch 1, none⟩, ⟨.checkpoint 0 none, none⟩, ⟨echoBatch 2, none⟩,
    ⟨.compactCheckpoint (some ⟨.syncRemoved, false⟩) true, none⟩, ⟨.compactCheckpoint none true, none⟩]

/-- The second compaction cuts the WAL of the first at the offset of the old one, and the second record is gone. -/
theorem late_failure_loses_record : ¬ (Traced.fresh.run (fun _ => 0) lateFailure).Recovers (fun _ => 0) [] 0 := by
  have hretired : (Traced.fresh.run (fun _ => 0) lateFailure).retired = 1 := by decide +kernel
  have hmemtable : ((recover echo (fun _ => 0) 0).exec
      ⟨(Traced.fresh.run (fun _ => 0) lateFailure).journal.files.crash [], none⟩).1.toOption.map
        (fun (_, replayed) => replayed.memtable) = some [] := by decide +kernel
  have hrows : ∀ n ≤ 1, ((Traced.fresh.run (fun _ => 0) lateFailure).history.drop n).flatMap Entry.rows ≠ [] := by
    decide +kernel
  rintro ⟨writer, replayed, m, hexec, n, hn, hrow⟩
  rw [hexec] at hmemtable
  rw [hretired] at hn
  exact hrows n hn (hrow ▸ Option.some.inj hmemtable)

/-- The process goes down where the sync fails: the start puts the second record back. -/
theorem late_crash_recovers :
    (Traced.fresh.run (fun _ => 0) [⟨.start 0 none, none⟩, ⟨echoBatch 1, none⟩, ⟨.checkpoint 0 none, none⟩,
      ⟨echoBatch 2, none⟩, ⟨.compactCheckpoint (some ⟨.syncRemoved, false⟩) true, some []⟩]).Recovers
      (fun _ => 0) [] 0 := by
  refine (recovers_of_sparing _ _ fun event hevent fault reopens haction hlate => ?_).2 [] 0
  simp only [List.mem_cons, List.not_mem_nil, or_false] at hevent
  rcases hevent with rfl | rfl | rfl | rfl | rfl
  · cases haction
  · cases haction
  · cases haction
  · cases haction
  · simp

end Example

end Signy
