/-
The positions of the streams, through batches, crashes and starts.

The writer folds the marks of a batch before it writes them, and looks for the sender only. Where a batch has
marks of one signal for each sender, and no checkpoint forgets a stream or goes on without its marks, a stream is
where its own marks put it.
-/
import Mathlib
import Fn0.Signy.JournalRun

namespace Signy

open Eff

local instance neZero_u64 : NeZero (2 ^ 64) := ⟨by decide⟩

variable {Row : Type} {decode : Decode Row} {crc32 : Bytes → UInt32}

/-! ## The highest mark -/

/-- How far the marks of a stream go. -/
def high : List CollectMark → Stream → Position
  | [], _ => Position.start
  | mark :: marks, stream =>
    if mark.stream = stream then max mark.position (high marks stream) else high marks stream

theorem start_le_high (marks : List CollectMark) (stream : Stream) : Position.start ≤ high marks stream := by
  induction marks with
  | nil => exact le_rfl
  | cons mark marks ih =>
    rw [high]
    split
    · exact ih.trans (le_max_right _ _)
    · exact ih

theorem high_append (a b : List CollectMark) (stream : Stream) :
    high (a ++ b) stream = max (high a stream) (high b stream) := by
  induction a with
  | nil => exact (max_eq_right (start_le_high b stream)).symm
  | cons mark a ih =>
    rw [List.cons_append, high, high, ih]
    split
    · rw [max_assoc]
    · rfl

theorem position_foldl_advance (now : Nat) (marks : List CollectMark) (seen : CollectMarks) (stream : Stream)
    (h : Position.start ≤ seen.position stream) :
    (marks.foldl (fun seen mark => seen.advance mark now) seen).position stream =
      max (seen.position stream) (high marks stream) := by
  induction marks generalizing seen with
  | nil => exact (max_eq_left h).symm
  | cons mark marks ih =>
    have hstep := CollectMarks.position_advance seen mark now stream
    rw [List.foldl_cons, ih, hstep, high]
    · split
      · rw [max_assoc]
      · rfl
    · rw [hstep]
      split
      · exact h.trans (le_max_left _ _)
      · exact h

/-! ## The marks of a batch -/

/-- No sender has two signals. -/
def Plain (streams : List Stream) : Prop := ∀ a ∈ streams, ∀ b ∈ streams, a.1 = b.1 → a = b

instance (streams : List Stream) : Decidable (Plain streams) := inferInstanceAs (Decidable (∀ a ∈ streams, _))

theorem Plain.subset {a b : List Stream} (h : Plain b) (hsubset : a ⊆ b) : Plain a :=
  fun s hs t ht => h s (hsubset hs) t (hsubset ht)

theorem stream_mergeMark (seen : List CollectMark) (mark : CollectMark) :
    (mergeMark seen mark).map CollectMark.stream ⊆ (seen ++ [mark]).map CollectMark.stream := by
  induction seen with
  | nil => exact fun _ h => h
  | cons first seen ih =>
    rw [mergeMark]
    split
    · intro stream hstream
      simp only [List.map_cons, List.mem_cons, List.map_append, List.cons_append, List.mem_append] at hstream ⊢
      exact hstream.imp id .inl
    · simpa only [List.map_cons, List.cons_append] using List.cons_subset_cons _ ih

theorem high_mergeMark {seen : List CollectMark} {mark : CollectMark}
    (hplain : Plain ((seen ++ [mark]).map CollectMark.stream)) (stream : Stream) :
    high (mergeMark seen mark) stream = high (seen ++ [mark]) stream := by
  induction seen with
  | nil => rfl
  | cons first seen ih =>
    have hrest := hplain.subset (List.subset_cons_self _ _)
    rw [mergeMark]
    split
    next hsender =>
      have hstream : first.stream = mark.stream := hplain _ List.mem_cons_self _ (by simp) hsender
      have hmerged : ({ first with position := max first.position mark.position } : CollectMark).stream = mark.stream :=
        hstream
      by_cases heq : mark.stream = stream
      · have hlast : max (high seen stream) (max mark.position Position.start) = max mark.position
          (high seen stream) := by
          rw [max_comm mark.position, ← max_assoc, max_eq_left (start_le_high _ _), max_comm]
        simp only [List.cons_append, high, high_append, hmerged, hstream, if_pos heq, hlast, max_assoc]
      · simp only [List.cons_append, high, high_append, hmerged, hstream, if_neg heq, max_eq_left (start_le_high _ _)]
    next hsender => rw [List.cons_append, high, high, ih hrest]

/-- The fold of the writer keeps what the marks say. -/
theorem high_foldl_mergeMark {seen marks : List CollectMark} (hplain : Plain ((seen ++ marks).map CollectMark.stream))
    (stream : Stream) : high (marks.foldl mergeMark seen) stream = high (seen ++ marks) stream := by
  induction marks generalizing seen with
  | nil => rw [List.foldl_nil, List.append_nil]
  | cons mark marks ih =>
    rw [List.append_cons, List.map_append] at hplain
    have hfirst := hplain.subset (List.subset_append_left _ _)
    have hrest : Plain ((mergeMark seen mark ++ marks).map CollectMark.stream) := by
      rw [List.map_append]
      exact hplain.subset (List.append_subset.mpr
        ⟨List.Subset.trans (stream_mergeMark seen mark) (List.subset_append_left _ _), List.subset_append_right _ _⟩)
    rw [List.foldl_cons, ih hrest, high_append, high_mergeMark hfirst, ← high_append, ← List.append_cons]

def marksOf (entries : List (Entry decode)) : List CollectMark := entries.filterMap Entry.mark?

theorem marksOf_append (a b : List (Entry decode)) : marksOf (a ++ b) = marksOf a ++ marksOf b := List.filterMap_append

theorem marksOf_batchEntries (batch : List (AppendItem decode)) : marksOf (batchEntries batch) = batchMarks batch := by
  have hmarks : @Entry.mark? Row decode ∘ Entry.mark = some := rfl
  rw [batchEntries, marksOf_append, marksOf, marksOf, List.filterMap_map, List.filterMap_map, hmarks,
    List.filterMap_some]
  simp [Entry.mark?]

def AppendItem.marks (batch : List (AppendItem decode)) : List CollectMark := batch.filterMap AppendItem.mark

theorem high_batchMarks {batch : List (AppendItem decode)}
    (hplain : Plain ((AppendItem.marks batch).map CollectMark.stream)) (stream : Stream) :
    high (batchMarks batch) stream = high (AppendItem.marks batch) stream :=
  high_foldl_mergeMark (List.nil_append _ ▸ hplain) stream

/-! ## The file of the marks -/

variable (crc32) in
/-- The file has the marks of the first `floor` records, and none that are not in the history. -/
def Covers (history : List (Entry decode)) (floor : Nat) (bytes : Option Bytes) : Prop :=
  ∀ stream, high (marksOf (history.take floor)) stream ≤ (CollectMarks.load crc32 bytes).position stream ∧
    (CollectMarks.load crc32 bytes).position stream ≤ high (marksOf history) stream

theorem high_take_le (history : List (Entry decode)) (n : Nat) (stream : Stream) :
    high (marksOf (history.take n)) stream ≤ high (marksOf history) stream := by
  nth_rewrite 2 [← List.take_append_drop n history]
  rw [marksOf_append, high_append]
  exact le_max_left _ _

theorem Covers.lower {history : List (Entry decode)} {floor floor' : Nat} (hle : floor' ≤ floor) {bytes : Option Bytes}
    (h : Covers crc32 history floor bytes) : Covers crc32 history floor' bytes := by
  intro stream
  refine ⟨le_trans ?_ (h stream).1, (h stream).2⟩
  rw [← min_eq_left hle, ← List.take_take]
  exact high_take_le _ _ _

theorem Covers.append {history : List (Entry decode)} {floor : Nat} (hle : floor ≤ history.length)
    (entries : List (Entry decode)) {bytes : Option Bytes} (h : Covers crc32 history floor bytes) :
    Covers crc32 (history ++ entries) floor bytes := by
  intro stream
  rw [List.take_append_of_le_length hle, marksOf_append, high_append]
  exact ⟨(h stream).1, (h stream).2.trans (le_max_left _ _)⟩

/-- A store of all positions. -/
theorem covers_image {history : List (Entry decode)} {marks : CollectMarks}
    (hmarks : ∀ stream, marks.position stream = high (marksOf history) stream)
    (hcount : marks.seen.entries.length < 2 ^ 32) (floor : Nat) :
    Covers crc32 history floor (some (marks.image crc32)) := by
  intro stream
  rw [CollectMarks.position_load_image crc32 marks hcount, hmarks]
  exact ⟨high_take_le _ _ _, le_rfl⟩

/-- The file and the records replay begins with make up the positions. -/
theorem Covers.replay {history : List (Entry decode)} {floor n : Nat} (hn : n ≤ floor) {bytes : Option Bytes}
    (h : Covers crc32 history floor bytes) (now : Nat) (stream : Stream) :
    ((marksOf (history.drop n)).foldl (fun seen mark => seen.advance mark now) (CollectMarks.load crc32 bytes)).position
      stream = high (marksOf history) stream := by
  have hlow := h.lower hn stream
  have hsplit : high (marksOf history) stream =
      max (high (marksOf (history.take n)) stream) (high (marksOf (history.drop n)) stream) := by
    nth_rewrite 1 [← List.take_append_drop n history]
    rw [marksOf_append, high_append]
  rw [position_foldl_advance now _ _ _ ((start_le_high _ _).trans hlow.1)]
  apply le_antisymm
  · exact max_le hlow.2 (hsplit ▸ le_max_right _ _)
  · rw [hsplit]
    exact max_le_max_right _ hlow.1

/-- No stream is silent for so long that a store forgets it. -/
def CollectMarks.Live (marks : CollectMarks) (now : Nat) : Prop :=
  ∀ entry ∈ marks.seen.entries, CollectMarks.Seen.live now entry.2

theorem CollectMarks.Live.retain {marks : CollectMarks} {now : Nat} (h : marks.Live now) :
    marks.retain now = marks := by
  obtain ⟨⟨entries, hkeys⟩⟩ := marks
  have hfilter : entries.filter (fun entry => CollectMarks.Seen.live now entry.2) = entries :=
    List.filter_eq_self.mpr h
  simp only [CollectMarks.retain, hfilter]

/-! ## Actions -/

section Actions

variable {past : Past decode} {taken : Nat} {j : Journal Row} {process : Process Row}

/-- Once the file is replaced and the directory synced, the file is the new one whatever a crash keeps. -/
theorem Shape.Kept.remark {sh : Shape decode} {strict : Prop} {files : JournalFiles} (h : sh.Kept crc32 strict files)
    (hsynced : files.pending = []) {bytes : Bytes} (hread : files.read .marks = some bytes)
    {marks : Option Bytes → Prop} (hmarks : marks (some bytes)) :
    ({ sh with marks } : Shape decode).Kept crc32 strict files := by
  obtain ⟨owner, hviews⟩ := h.views
  refine ⟨⟨h.wal.torn, h.wal.cut_le, h.wal.cut_retired, h.wal.bytes, h.wal.short⟩, owner, fun v hv => ?_⟩
  have hfit := hviews v hv
  have hview : files.view = files.durable := by simp [Names.view, hsynced]
  refine ⟨hfit.wal, hfit.owned, hfit.ckpt, hfit.state, ?_⟩
  rw [Names.views_of_synced hsynced hv, ← hview]
  rw [← hread] at hmarks
  exact hmarks

theorem marks_foldl_add (now : Nat) (entries : List (Entry decode)) (state : Replayed Row) :
    (entries.foldl (Replayed.add now) state).marks =
      (marksOf entries).foldl (fun seen mark => seen.advance mark now) state.marks := by
  induction entries generalizing state with
  | nil => rfl
  | cons entry entries ih =>
    rw [List.foldl_cons, ih, marksOf]
    cases entry with
    | record r => rfl
    | mark m => rfl

/-- What a start makes of the file and the WAL. -/
theorem Past.Held.start_marks (h : past.Held crc32 taken j) (hj : j.process = none) {now : Nat} {fault : Option Fault}
    (hstart : (Signy.start crc32 decode now fault j).process = some process) :
    ∃ n ≤ past.retired, ∃ bytes, past.marks bytes ∧ process.marks =
      (marksOf (past.history.drop n)).foldl (fun seen mark => seen.advance mark now)
      (CollectMarks.load crc32 bytes) := by
  rw [Past.Held, hj] at h
  simp only [Signy.start, hj] at hstart
  rcases h with ⟨hhistory, hmarks, hblank⟩ | ⟨sh, rfl, hkept⟩
  · have hsat := sat_recover_blank crc32 (m := ⟨j.files, fault⟩) hblank hhistory hmarks now
    rcases hexec : (recover decode crc32 now).exec ⟨j.files, fault⟩ with ⟨e | ⟨w, replayed⟩, m⟩ <;>
      rw [hexec] at hstart
    · cases hstart
    · obtain ⟨-, -, rfl⟩ := hsat.of_ok hexec
      cases hstart
      exact ⟨0, Nat.zero_le _, none, hmarks, by simp [hhistory, marksOf]⟩
  · have hsat := sat_recover (m := ⟨j.files, fault⟩) hkept now
    rcases hexec : (recover decode crc32 now).exec ⟨j.files, fault⟩ with ⟨e | ⟨w, replayed⟩, m⟩ <;>
      rw [hexec] at hstart
    · cases hstart
    · obtain ⟨-, -, n, hn, rfl⟩ := hsat.of_ok hexec
      cases hstart
      obtain ⟨owner, hviews⟩ := hkept.views
      exact ⟨n, hn, _, (hviews _ (Names.views_view _)).marks, marks_foldl_add _ _ _⟩

/-- A checkpoint that returns an offset has stored the marks. -/
theorem Past.Held.checkpoint_marks (h : past.Held crc32 taken j) {now : Nat} {fault : Option Fault}
    (hidle : j.flush = .idle) (hfault : ∀ part took, fault ≠ some ⟨.marks part, took⟩)
    (hmarks : ∀ process w, j.process = some process → process.writer = some w →
      past.marks (some ((process.marks.retain now).image crc32)))
    (htaken : (Signy.checkpoint crc32 now fault j).flush ≠ .idle) {marks : Option Bytes → Prop}
    (hstored : ∀ process w, j.process = some process → process.writer = some w →
      marks (some ((process.marks.retain now).image crc32))) :
    Past.Held crc32 ⟨past.history, past.retired, marks⟩ past.history.length (Signy.checkpoint crc32 now fault j) := by
  have hheld := h.checkpoint now fault hmarks
  rw [if_pos hidle] at hheld
  rcases hj : j.process with _ | process
  · exact absurd (by simp [Signy.checkpoint, Journal.flush, hj]) htaken
  rw [Journal.flush, hj] at hidle
  rcases hw : process.writer with _ | w
  · exact absurd (by simp [Signy.checkpoint, Journal.flush, hj, hw, hidle]) htaken
  simp only [Signy.checkpoint, hj, hw, hidle] at htaken hheld ⊢
  rcases hexec : (call .syncWal id).exec ⟨j.files, fault⟩ with ⟨e | _, m⟩ <;> rw [hexec] at htaken hheld
  · exact absurd (by simp [Journal.flush]) htaken
  have hm : m = ⟨j.files, fault⟩ := by
    obtain ⟨sh, -, hrunning⟩ := h.running hj
    have hsat : Sat (call .syncWal id) ⟨j.files, fault⟩ (fun _ m => m = ⟨j.files, fault⟩)
        (fun _ m => sh.Kept crc32 True m.files ∧ fault ≠ none) := sat_call_keeps hrunning.kept hrunning.kept
    exact hsat.of_ok hexec
  subst hm
  have hstore := exec_replaceFile_of_ne (m := ⟨j.files, fault⟩) hfault .marks ((process.marks.retain now).image crc32)
  simp only [hstore] at hheld ⊢
  obtain ⟨sh, hpast, hrunning⟩ := hheld
  have hread : (j.files.replace .marks ((process.marks.retain now).image crc32)).sync.read .marks =
      some ((process.marks.retain now).image crc32) := by
    rw [Names.read, Names.view_sync, Names.view_replace, if_pos rfl, Option.map_some]
    exact congrArg some (Function.update_self _ _ _)
  refine ⟨{ sh with marks }, by rw [← hpast], ?_, hrunning.writer, hrunning.flush⟩
  exact hrunning.kept.remark rfl hread (hstored process w hj hw)

end Actions

/-! ## Runs -/

variable (crc32) in
/-- The marks an action makes durable: those handed over with a batch that is synced, and of one whose write stopped
those that got into the WAL. -/
def Journal.marked (j : Journal Row) : Action decode → List CollectMark
  | .batch _ batch outcome =>
    match j.process.bind Process.writer with
    | none => []
    | some writer =>
      match outcome.within ((j.files.content writer.inode).length + (frames crc32 (batchEntries batch)).length) with
      | .done => AppendItem.marks batch
      | .failed => []
      | .torn bytes => marksOf (wholeWithin crc32 (batchEntries batch) bytes)
  | _ => []

variable (crc32) in
def Traced.marked (t : Traced decode) : List (Event decode) → List CollectMark
  | [] => []
  | event :: events => t.journal.marked crc32 event.action ++ (t.next crc32 event).marked events

/-- A batch has marks of one signal for each sender. A checkpoint forgets no stream, has a number of them that the file
can say, and goes on only when the file is written. -/
def Event.KeepsMarks (j : Journal Row) (event : Event decode) : Prop :=
  match event.action with
  | .batch _ batch _ => Plain ((AppendItem.marks batch).map CollectMark.stream)
  | .checkpoint now fault =>
    (∀ process, j.process = some process → process.marks.Live now ∧ process.marks.seen.entries.length < 2 ^ 32) ∧
      ∀ part took, fault = some ⟨.marks part, took⟩ → event.down ≠ none
  | _ => True

variable (crc32) in
def Traced.Keeping (t : Traced decode) : List (Event decode) → Prop
  | [] => True
  | event :: events => event.Sparing ∧ event.KeepsMarks t.journal ∧ (t.next crc32 event).Keeping events

/-- How many records the file of the marks has to cover. -/
def floor (flush : Flush) (retired taken : Nat) : Nat := if flush = .idle then retired else max retired taken

theorem retired_le_floor (flush : Flush) (retired taken : Nat) : retired ≤ floor flush retired taken := by
  unfold floor
  split
  · exact le_rfl
  · exact le_max_left _ _

variable (crc32) in
/-- The positions are those of the marks in the history, in the process and in what a crash leaves. -/
structure Traced.Marked (t : Traced decode) : Prop where
  held : Past.Held crc32 ⟨t.history, t.retired, Covers crc32 t.history (floor t.journal.flush t.retired t.taken)⟩
    t.taken
    t.journal
  retired_le : t.retired ≤ t.history.length
  positions : ∀ process w, t.journal.process = some process → process.writer = some w →
    ∀ stream, process.marks.position stream = high (marksOf t.history) stream

theorem Traced.Marked.floor_le {t : Traced decode} (h : t.Marked crc32) :
    floor t.journal.flush t.retired t.taken ≤ t.history.length := by
  unfold floor
  split
  · exact h.retired_le
  next hbusy =>
    refine max_le h.retired_le ?_
    rcases hj : t.journal.process with _ | process
    · exact absurd (by rw [Journal.flush, hj]) hbusy
    rw [Journal.flush, hj] at hbusy
    obtain ⟨sh, hpast, hrunning⟩ := h.held.running hj
    obtain ⟨offset, hoffset⟩ : ∃ offset, process.flush.offset? = some offset := by
      rcases hflush : process.flush with _ | offset | offset
      · exact absurd hflush hbusy
      · exact ⟨offset, rfl⟩
      · exact ⟨offset, rfl⟩
    have hhistory : sh.history = t.history := congrArg Past.history hpast
    exact hhistory ▸ (hrunning.flush offset hoffset).high

section Acts

variable {j : Journal Row}

theorem flush_writeBatch (now : Nat) (batch : List (AppendItem decode)) (outcome : BatchOutcome) :
    (writeBatch crc32 now batch outcome j).flush = j.flush := by
  unfold writeBatch
  split
  · rfl
  next process hj =>
    split
    · rfl
    · dsimp only
      split <;> simp [Journal.flush, hj]

theorem offset_of_flush_idle {process : Process Row} (hj : j.process = some process) (h : j.flush = .idle) :
    process.flush.offset? = none := by
  rw [Journal.flush, hj] at h
  simp only at h
  rw [h]
  rfl

theorem setCheckpoint_of_idle (h : j.flush = .idle) (fault : Option Fault) : setCheckpoint fault j = j := by
  unfold setCheckpoint
  split
  · rfl
  next process hj => rw [offset_of_flush_idle hj h]

theorem compactCheckpoint_of_idle (h : j.flush = .idle) (fault : Option Fault) (reopens : Bool) :
    compactCheckpoint fault reopens j = j := by
  unfold compactCheckpoint
  split
  · rfl
  next process hj => rw [offset_of_flush_idle hj h]

/-- What retiring makes of the floor. -/
theorem floor_retire {flush flush' : Flush} (retired taken : Nat) (hidle : flush = .idle → flush' = .idle) :
    floor flush' (if flush = .idle then retired else max retired taken) taken = floor flush retired taken := by
  unfold floor
  by_cases hflush : flush = .idle
  · rw [if_pos (hidle hflush), if_pos hflush]
  · simp only [if_neg hflush]
    split
    · rfl
    · rw [max_assoc, max_self]

theorem flush_abandon : (abandon j).flush = .idle ∨ (abandon j).flush = j.flush := by
  unfold abandon
  split
  · split
    · exact .inl rfl
    · exact .inr rfl
  · exact .inr rfl

theorem flush_start (hj : j.process = none) (now : Nat) (fault : Option Fault) :
    (start crc32 decode now fault j).flush = .idle := by
  simp only [start, hj]
  rcases (recover decode crc32 now).exec ⟨j.files, fault⟩ with ⟨e | ⟨w, replayed⟩, m⟩ <;> rfl

variable {before process : Process Row} {w : Writer}

theorem marks_abandon (hj : j.process = some before) (hprocess : (abandon j).process = some process)
    (hw : process.writer = some w) : process.marks = before.marks ∧ ∃ w', before.writer = some w' := by
  simp only [abandon, hj] at hprocess
  split at hprocess
  · cases hprocess
    exact ⟨rfl, w, hw⟩
  · cases hj.symm.trans hprocess
    exact ⟨rfl, w, hw⟩

theorem marks_setCheckpoint {fault : Option Fault} (hj : j.process = some before)
    (hprocess : (setCheckpoint fault j).process = some process) (hw : process.writer = some w) :
    process.marks = before.marks ∧ ∃ w', before.writer = some w' := by
  simp only [setCheckpoint, hj] at hprocess
  split at hprocess
  · cases hj.symm.trans hprocess
    exact ⟨rfl, w, hw⟩
  · split at hprocess <;> cases hprocess <;> exact ⟨rfl, w, hw⟩

theorem marks_compactCheckpoint {fault : Option Fault} {reopens : Bool} (hj : j.process = some before)
    (hprocess : (compactCheckpoint fault reopens j).process = some process) (hw : process.writer = some w) :
    process.marks = before.marks ∧ ∃ w', before.writer = some w' := by
  simp only [compactCheckpoint, hj] at hprocess
  split at hprocess
  · cases hj.symm.trans hprocess
    exact ⟨rfl, w, hw⟩
  · split at hprocess
    next hnone =>
      cases hprocess
      exact absurd hw (by simp [hnone])
    next w' hw' => split at hprocess <;> cases hprocess <;> exact ⟨rfl, w', hw'⟩

theorem marks_checkpoint {now : Nat} {fault : Option Fault} (hj : j.process = some before)
    (hprocess : (checkpoint crc32 now fault j).process = some process) (hw : process.writer = some w) :
    (process.marks = before.marks ∨ process.marks = before.marks.retain now) ∧ ∃ w', before.writer = some w' := by
  simp only [checkpoint, hj] at hprocess
  split at hprocess
  next _ _ w' hw' _ =>
    split at hprocess
    · cases hprocess
      cases hw
    · cases hprocess
      exact ⟨.inr rfl, w', hw'⟩
  · cases hj.symm.trans hprocess
    exact ⟨.inl rfl, w, hw⟩

end Acts

theorem Traced.Marked.act {t : Traced decode} (h : t.Marked crc32) {event : Event decode} (hspare : event.Sparing)
    (hkeeps : event.KeepsMarks t.journal) :
    Past.Held crc32 ⟨(t.next crc32 event).history, (t.next crc32 event).retired, Covers crc32
      (t.next crc32 event).history
        (floor (t.journal.act crc32 event.action).flush (t.next crc32 event).retired (t.next crc32 event).taken)⟩
        (t.next crc32 event).taken (t.journal.act crc32 event.action) ∨
      event.down ≠ none ∧ Safe crc32 ⟨(t.next crc32 event).history, (t.next crc32 event).retired,
        Covers crc32 (t.next crc32 event).history (t.next crc32 event).retired⟩
          (t.journal.act crc32 event.action).files := by
  obtain ⟨action, down⟩ := event
  have hnone : t.history ++ ([] : List (Entry decode)) = t.history := List.append_nil _
  have hheld := h.held
  cases action with
  | batch now batch outcome =>
    left
    simp only [Traced.next, Journal.act, flush_writeBatch]
    exact hheld.batch now batch outcome fun bytes => Covers.append h.floor_le _
  | checkpoint now fault =>
    obtain ⟨hlive, hfault⟩ := hkeeps
    simp only [Traced.next, Journal.written, Journal.act, hnone]
    have himage : ∀ floor process w, t.journal.process = some process → process.writer = some w →
        Covers crc32 t.history floor (some ((process.marks.retain now).image crc32)) := by
      intro floor process w hj hw
      obtain ⟨hlive, hcount⟩ := hlive process hj
      rw [hlive.retain]
      exact covers_image (h.positions process w hj hw) hcount floor
    by_cases hidle : t.journal.flush = .idle
    · have hchecked := hheld.checkpoint now fault (himage _)
      rw [if_pos hidle] at hchecked ⊢
      by_cases htaken : (checkpoint crc32 now fault t.journal).flush = .idle
      · left
        rwa [htaken, show floor .idle t.retired t.history.length = floor t.journal.flush t.retired t.taken by
          rw [hidle]; rfl]
      · by_cases hmarks : ∃ part took, fault = some ⟨.marks part, took⟩
        · obtain ⟨part, took, htook⟩ := hmarks
          refine .inr ⟨hfault part took htook, ?_⟩
          rcases hj : (checkpoint crc32 now fault t.journal).process with _ | process
          · exact absurd (by rw [Journal.flush, hj]) htaken
          · obtain ⟨sh, hpast, hrunning⟩ := hchecked.running hj
            have hsafe := hrunning.safe
            rw [hpast, hidle] at hsafe
            exact hsafe
        · left
          refine hheld.checkpoint_marks hidle (fun part took htook => hmarks ⟨part, took, htook⟩) (himage _) htaken
            (himage _)
    · left
      rw [if_neg hidle, checkpoint_of_busy hidle]
      exact hheld
  | abandon =>
    left
    simp only [Traced.next, Journal.written, Journal.act, hnone]
    refine (hheld.weaken le_rfl fun bytes => Covers.lower ?_).abandon
    rcases flush_abandon (j := t.journal) with hidle | hsame
    · rw [hidle]
      exact retired_le_floor _ _ _
    · rw [hsame]
  | setCheckpoint fault =>
    left
    simp only [Traced.next, Journal.written, Journal.act, hnone]
    rw [floor_retire _ _ fun hidle => by rw [setCheckpoint_of_idle hidle, hidle]]
    exact hheld.setCheckpoint fault fun _ h => h
  | compactCheckpoint fault reopens =>
    simp only [Traced.next, Journal.written, Journal.act, hnone]
    rw [floor_retire _ _ fun hidle => by rw [compactCheckpoint_of_idle hidle, hidle]]
    rcases hheld.compactCheckpoint fault reopens fun _ h => h with hheld | ⟨hlate, hsafe⟩
    · exact .inl hheld
    · exact .inr ⟨hspare fault reopens rfl hlate, hsafe⟩
  | start now fault =>
    left
    simp only [Traced.next, Journal.written, Journal.act, hnone]
    have hflush : (start crc32 decode now fault t.journal).flush = t.journal.flush := by
      rcases hj : t.journal.process with _ | process
      · rw [flush_start hj, Journal.flush, hj]
      · simp [start, hj]
    rw [hflush]
    exact hheld.start now fault

theorem Traced.Marked.positions_act {t : Traced decode} (h : t.Marked crc32) {event : Event decode}
    (hkeeps : event.KeepsMarks t.journal) {process : Process Row} {w : Writer}
    (hprocess : (t.journal.act crc32 event.action).process = some process) (hw : process.writer = some w)
    (stream : Stream) : process.marks.position stream = high (marksOf (t.next crc32 event).history) stream := by
  obtain ⟨action, down⟩ := event
  have hnone : t.history ++ ([] : List (Entry decode)) = t.history := List.append_nil _
  rcases hj : t.journal.process with _ | before
  · -- only a start makes a process
    cases action with
    | start now fault =>
      simp only [Traced.next, Journal.written, hnone]
      obtain ⟨n, hn, bytes, hcovers, hmarks⟩ := h.held.start_marks hj hprocess
      rw [hmarks]
      exact hcovers.replay (hn.trans (retired_le_floor _ _ _)) now stream
    | batch now batch outcome => simp [Journal.act, writeBatch, hj] at hprocess
    | checkpoint now fault => simp [Journal.act, checkpoint, hj] at hprocess
    | abandon => simp [Journal.act, abandon, hj] at hprocess
    | setCheckpoint fault => simp [Journal.act, setCheckpoint, hj] at hprocess
    | compactCheckpoint fault reopens => simp [Journal.act, compactCheckpoint, hj] at hprocess
  · cases action with
    | start now fault =>
      simp only [Journal.act, start, hj, Option.some.injEq] at hprocess
      simp only [Traced.next, Journal.written, hnone]
      exact h.positions process w (hj.trans (congrArg some hprocess)) hw stream
    | batch now batch outcome =>
      simp only [Journal.act, writeBatch, hj] at hprocess
      simp only [Traced.next, Journal.written, hj, Option.bind_some]
      rcases hbefore : before.writer with _ | writer
      · simp only [hbefore] at hprocess ⊢
        rw [hnone]
        exact h.positions process w hprocess hw stream
      · simp only [hbefore] at hprocess ⊢
        have hpositions := h.positions before writer hj hbefore
        generalize outcome.within ((t.journal.files.content writer.inode).length +
          (frames crc32 (batchEntries batch)).length) = out at hprocess ⊢
        rcases out with _ | _ | bytes
        · cases hprocess
          rw [marksOf_append, high_append, marksOf_batchEntries, ← hpositions stream]
          exact position_foldl_advance now _ _ stream (hpositions stream ▸ start_le_high _ _)
        · cases hprocess
          simpa using hpositions stream
        · cases hprocess
          cases hw
    | checkpoint now fault =>
      simp only [Traced.next, Journal.written, hnone]
      obtain ⟨hmarks, w', hw'⟩ := marks_checkpoint hj hprocess hw
      have hretain := (hkeeps.1 before hj).1.retain
      rw [hretain, or_self] at hmarks
      rw [hmarks]
      exact h.positions before w' hj hw' stream
    | abandon =>
      simp only [Traced.next, Journal.written, hnone]
      obtain ⟨hmarks, w', hw'⟩ := marks_abandon hj hprocess hw
      rw [hmarks]
      exact h.positions before w' hj hw' stream
    | setCheckpoint fault =>
      simp only [Traced.next, Journal.written, hnone]
      obtain ⟨hmarks, w', hw'⟩ := marks_setCheckpoint hj hprocess hw
      rw [hmarks]
      exact h.positions before w' hj hw' stream
    | compactCheckpoint fault reopens =>
      simp only [Traced.next, Journal.written, hnone]
      obtain ⟨hmarks, w', hw'⟩ := marks_compactCheckpoint hj hprocess hw
      rw [hmarks]
      exact h.positions before w' hj hw' stream

theorem Traced.Marked.retired_next {t : Traced decode} (h : t.Marked crc32) (event : Event decode) :
    (t.next crc32 event).retired ≤ (t.next crc32 event).history.length := by
  have hfloor := h.floor_le
  have hle : (t.next crc32 event).retired ≤ floor t.journal.flush t.retired t.taken := by
    simp only [Traced.next]
    split
    · exact le_rfl
    · exact le_rfl
    · exact retired_le_floor _ _ _
  refine hle.trans (hfloor.trans ?_)
  simp [Traced.next]

theorem Traced.Marked.next {t : Traced decode} (h : t.Marked crc32) {event : Event decode} (hspare : event.Sparing)
    (hkeeps : event.KeepsMarks t.journal) : (t.next crc32 event).Marked crc32 := by
  have hact := h.act hspare hkeeps
  have hjournal : (t.next crc32 event).journal = t.journal.next crc32 event := rfl
  rcases hdown : event.down with _ | mask
  · have hnext : (t.next crc32 event).journal = t.journal.act crc32 event.action := by
      rw [hjournal, Journal.next, hdown]
    refine ⟨?_, h.retired_next event, fun process w hprocess hw => ?_⟩
    · rw [hnext]
      exact hact.resolve_right fun hright => hright.1 hdown
    · rw [hnext] at hprocess
      exact h.positions_act hkeeps hprocess hw
  · have hnext : (t.next crc32 event).journal = crash mask (t.journal.act crc32 event.action) := by
      rw [hjournal, Journal.next, hdown]
    have hidle : (t.next crc32 event).journal.flush = .idle := by rw [hnext]; rfl
    refine ⟨?_, h.retired_next event, fun process w hprocess hw => ?_⟩
    · rw [hidle, hnext]
      rcases hact with hheld | ⟨-, hsafe⟩
      · exact (hheld.weaken le_rfl fun bytes => Covers.lower (retired_le_floor _ _ _)).crash mask _
      · exact .inr (hsafe.crash mask)
    · rw [hnext] at hprocess
      cases hprocess

/-- The marks handed over and the marks in the WAL say the same. -/
theorem high_marked (t : Traced decode) {event : Event decode} (hkeeps : event.KeepsMarks t.journal) (stream : Stream) :
    high (marksOf (t.next crc32 event).history) stream =
      high (marksOf t.history ++ t.journal.marked crc32 event.action) stream := by
  obtain ⟨action, down⟩ := event
  simp only [Traced.next, marksOf_append, high_append]
  congr 1
  cases action with
  | batch now batch outcome =>
    simp only [Journal.written, Journal.marked]
    rcases t.journal.process.bind Process.writer with _ | writer
    · rfl
    · dsimp only
      generalize outcome.within ((t.journal.files.content writer.inode).length +
        (frames crc32 (batchEntries batch)).length) = out
      rcases out with _ | _ | bytes
      · rw [marksOf_batchEntries]
        exact high_batchMarks hkeeps stream
      · rfl
      · rfl
  | checkpoint now fault => rfl
  | abandon => rfl
  | setCheckpoint fault => rfl
  | compactCheckpoint fault reopens => rfl
  | start now fault => rfl

theorem Traced.Marked.run {t : Traced decode} (h : t.Marked crc32) (events : List (Event decode))
    (hkeeping : t.Keeping crc32 events) : (t.run crc32 events).Marked crc32 ∧
      ∀ stream, high (marksOf (t.run crc32 events).history) stream =
        high (marksOf t.history ++ t.marked crc32 events) stream := by
  induction events generalizing t with
  | nil => exact ⟨h, fun stream => by rw [Traced.marked, List.append_nil]; rfl⟩
  | cons event events ih =>
    obtain ⟨hspare, hkeeps, hrest⟩ := hkeeping
    obtain ⟨hmarked, hhigh⟩ := ih (h.next hspare hkeeps) hrest
    refine ⟨hmarked, fun stream => (hhigh stream).trans ?_⟩
    rw [Traced.marked, high_append, high_marked t hkeeps, ← high_append, List.append_assoc]

variable (crc32) in
theorem Traced.marked_fresh : (Traced.fresh : Traced decode).Marked crc32 := by
  refine ⟨.inl ⟨rfl, fun stream => ⟨le_rfl, le_rfl⟩, fun v hv name i hi => ?_⟩, le_rfl, fun process w hprocess => ?_⟩
  · rw [Names.views_of_synced rfl hv] at hi
    cases hi
  · cases hprocess

/-- **Every stream is where its own marks put it.** After any run that keeps the marks a process that can still write
has for each stream the highest of the marks that became durable for that stream. -/
theorem position_of_keeping (crc32 : Bytes → UInt32) (events : List (Event decode))
    (hkeeping : Traced.fresh.Keeping crc32 events) (process : Process Row) (w : Writer)
    (hprocess : (Traced.fresh.run crc32 events).journal.process = some process) (hw : process.writer = some w)
    (stream : Stream) : process.marks.position stream = high (Traced.fresh.marked crc32 events) stream := by
  obtain ⟨hmarked, hhigh⟩ := (Traced.marked_fresh crc32).run events hkeeping
  rw [hmarked.positions process w hprocess hw stream, hhigh stream]
  rfl

section Example

def oneSender : SenderId := ⟨List.replicate 16 1, rfl⟩

/-- Bare marks. -/
def markBatch (marks : List CollectMark) : Action echo := .batch 0 (marks.map fun mark => ⟨none, some mark⟩) .done

/-- One batch has the mark of the logs and then that of the traces: the logs go where the traces are, and the traces
stay where they were. -/
theorem mixed_batch_moves_other_stream :
    ((Traced.fresh.run (fun _ => 0) [⟨.start 0 none, none⟩,
        ⟨markBatch [⟨oneSender, .logs, ⟨1, 1⟩⟩, ⟨oneSender, .traces, ⟨5, 3⟩⟩], none⟩]).journal.process.map
          fun process =>
          (process.writer.isSome, process.marks.position (oneSender, .logs), process.marks.position
            (oneSender, .traces))) =
      some (true, ⟨5, 3⟩, Position.start) ∧
    (fun marks => (high marks (oneSender, .logs), high marks (oneSender, .traces)))
        (Traced.fresh.marked (fun _ => 0) [⟨.start 0 none, none⟩,
          ⟨markBatch [⟨oneSender, .logs, ⟨1, 1⟩⟩, ⟨oneSender, .traces, ⟨5, 3⟩⟩], none⟩]) = (⟨1, 1⟩, ⟨5, 3⟩) := by
  decide +kernel

/-- The two marks in batches of their own, and a crash between them and the start. -/
def plainRun : List (Event echo) :=
  [⟨.start 0 none, none⟩, ⟨markBatch [⟨oneSender, .logs, ⟨1, 1⟩⟩], none⟩,
    ⟨markBatch [⟨oneSender, .traces, ⟨5, 3⟩⟩], some []⟩, ⟨.start 0 none, none⟩]

theorem plain_run_keeps_positions :
    ∃ process w, (Traced.fresh.run (fun _ => 0) plainRun).journal.process = some process ∧ process.writer = some w ∧
      process.marks.position (oneSender, .logs) = ⟨1, 1⟩ := by
  have hkeeping : Traced.fresh.Keeping (fun _ => 0) plainRun := by
    refine ⟨nofun, trivial, nofun, ?_, nofun, ?_, nofun, trivial, trivial⟩
    · exact (by decide : Plain [(oneSender, .logs)])
    · exact (by decide : Plain [(oneSender, .traces)])
  have hsome : ((Traced.fresh.run (fun _ => 0) plainRun).journal.process.bind Process.writer).isSome := by
    decide +kernel
  obtain ⟨w, hw⟩ := Option.isSome_iff_exists.mp hsome
  obtain ⟨process, hprocess, hwriter⟩ := Option.bind_eq_some_iff.mp hw
  refine ⟨process, w, hprocess, hwriter, ?_⟩
  rw [position_of_keeping (fun _ => 0) plainRun hkeeping process w hprocess hwriter]
  decide +kernel

end Example

end Signy
