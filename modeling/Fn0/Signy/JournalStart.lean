/-
What a start makes of a directory that a crash left.
-/
import Mathlib
import Fn0.Signy.JournalCalls

namespace Signy

open Eff

variable {Row : Type} {decode : Decode Row} {crc32 : Bytes → UInt32}

variable (crc32) in
/-- A directory that a start may come to. -/
def Past.Stands (past : Past decode) (files : JournalFiles) : Prop :=
  ∃ sh : Shape decode, sh.toPast = past ∧ sh.Kept crc32 False files

variable (crc32) in
/-- A directory that a start leaves. -/
def Past.Whole (past : Past decode) (files : JournalFiles) : Prop :=
  ∃ sh : Shape decode, sh.toPast = past ∧ sh.tail = [] ∧ sh.Kept crc32 True files

/-! ## A directory with a WAL -/

section

variable {sh : Shape decode} {strict : Prop} {m : Machine}

theorem sat_recoverUnfinishedCompaction (h : sh.Kept crc32 False m.files) :
    Sat recoverUnfinishedCompaction m
      (fun _ m' => sh.Kept crc32 False m'.files ∧ m'.fault = m.fault ∧ m'.files.view .state = none)
      (fun _ m' => sh.Kept crc32 False m'.files ∧ m.fault ≠ none) := by
  unfold recoverUnfinishedCompaction
  refine sat_bind.mpr (sat_get.mpr ?_)
  rcases h.readCompactionState with ⟨hread, hnone⟩ | ⟨state, hread, hgood⟩
  · rw [hread]
    exact ⟨h, rfl, hnone⟩
  · rw [hread]
    dsimp only
    split
    next =>
      refine (sat_removeCompactionState h).mono ?_ ?_
      · rintro _ m' ⟨hkept, hfault, hnone, -⟩
        exact ⟨hkept, hfault, hnone⟩
      · rintro _ m' ⟨hkept, took, htook | htook⟩
        · exact ⟨hkept, by simp [htook]⟩
        · exact ⟨hkept, by simp [htook]⟩
    next htmp => exact sat_restoreCompaction h (hgood (.inr (by simpa using htmp)))

theorem Shape.Kept.readCheckpoint {files : JournalFiles} (h : sh.Kept crc32 strict files) :
    ∃ offset, Signy.readCheckpoint files = .ok offset ∧ sh.Good crc32 offset := by
  obtain ⟨owner, hviews⟩ := h.views
  unfold Signy.readCheckpoint Names.read
  rcases hckpt : files.view .ckpt with _ | i
  · exact ⟨0, rfl, h.wal.good_zero⟩
  · obtain ⟨hlen, hgood⟩ := (hviews _ (Names.views_view files)).ckpt i hckpt
    rw [Option.map_some]
    dsimp only
    rw [if_neg (not_not.mpr hlen)]
    exact ⟨_, rfl, hgood⟩

variable (crc32) in
theorem eq_nil_of_size_eq_zero {entries : List (Entry decode)} (h : size crc32 entries = 0) : entries = [] := by
  cases entries with
  | nil => rfl
  | cons entry entries =>
    simp only [size, frames, List.flatMap_cons, List.length_append, length_frame, recordHeaderSize] at h
    omega

/-- Replay from an offset that is good reads the records behind it and stops where the whole ones end. -/
theorem Shape.Kept.replayFrom {files : JournalFiles} (h : sh.Kept crc32 strict files) {offset n : Nat}
    (hb : Boundary crc32 sh.history sh.cut offset n) (now : Nat) (state : Replayed Row) :
    Signy.replayFrom decode crc32 now (files.read .wal) offset state =
      .ok (size crc32 (sh.history.drop sh.cut), (sh.history.drop n).foldl (Replayed.add now) state) := by
  have hoffset := hb.offset_le
  unfold Signy.replayFrom
  rw [h.read_wal]
  dsimp only
  rw [List.length_append, ← size, if_neg (by omega)]
  split
  next heq =>
    have hnil : sh.history.drop n = [] := eq_nil_of_size_eq_zero crc32 (by omega)
    rw [hnil] at hoffset ⊢
    rw [← hoffset]
    simp [size, frames]
  next =>
    rw [hb.drop_frames, ← hoffset, replayLoop_frames crc32 h.wal.torn]

/-- The shape behind the cut of the tail. -/
def Shape.whole (sh : Shape decode) : Shape decode := { sh with tail := [] }

theorem sat_truncateTail (h : sh.Kept crc32 False m.files) (hstate : m.files.view .state = none) :
    Sat (truncateTail (size crc32 (sh.history.drop sh.cut))) m
      (fun _ m' => sh.whole.Kept crc32 False m'.files ∧ m'.fault = m.fault ∧ m'.files.view .state = none)
      (fun _ m' => sh.toPast.Stands crc32 m'.files ∧ m.fault ≠ none) := by
  unfold truncateTail
  refine sat_bind.mpr (sat_get.mpr ?_)
  rw [h.read_wal, Option.getD_some]
  dsimp only
  rw [List.length_append, ← size]
  split
  next =>
    have hlen : (frames crc32 (sh.history.drop sh.cut)).length ≤ maxFileLen := by
      have hshort := h.wal.short
      rw [h.wal.bytes, List.length_append] at hshort
      omega
    have hwhole : sh.whole.Kept crc32 False (m.files.write .wal (frames crc32 (sh.history.drop sh.cut))) := by
      have hkept := h.write sh.toPast [] (List.append_nil _).symm le_rfl (fun _ h => h) (.inl rfl) (by simpa using hlen)
      rw [List.append_nil] at hkept
      rw [Names.write, h.view_wal]
      exact hkept
    have hview : (m.files.write .wal (frames crc32 (sh.history.drop sh.cut))).view .state = none := by
      rw [Names.write, h.view_wal]
      exact hstate
    rw [size, List.take_left]
    have hstands : sh.toPast.Stands crc32 (m.files.write .wal (frames crc32 (sh.history.drop sh.cut))) :=
      ⟨sh.whole, rfl, hwhole⟩
    refine (sat_call_keeps (P := sh.toPast.Stands crc32) ⟨sh, rfl, h⟩ hstands).bind ?_ fun _ _ h => h
    rintro _ _ rfl
    refine (sat_call_keeps (m := m.setFiles _) hstands hstands).mono ?_ fun _ _ h => h
    rintro _ _ rfl
    exact ⟨hwhole, rfl, hview⟩
  next hge =>
    have htail : sh.tail = [] := List.eq_nil_of_length_eq_zero (by omega)
    have hwhole : sh.whole = sh := by
      cases sh
      simp_all [Shape.whole]
    rw [hwhole]
    exact ⟨h, rfl, hstate⟩

theorem sat_openWal (h : sh.Kept crc32 False m.files) (hstate : m.files.view .state = none) :
    Sat openWal m (fun w m' => sh.Kept crc32 True m'.files ∧ w = openWriter m'.files)
      (fun _ m' => sh.Kept crc32 False m'.files ∧ m.fault ≠ none) := by
  unfold openWal
  have hthere : (if (m.files.view .wal).isNone then m.files.replace .wal [] else m.files) = m.files := by
    simp [h.view_wal]
  refine (sat_call_keeps h (by rw [hthere]; exact h)).bind ?_ fun _ _ h => h
  rintro _ m₁ rfl
  rw [hthere]
  refine (sat_call_keeps h h).bind ?_ fun _ _ h => h
  rintro _ _ rfl
  refine (sat_call_keeps h h.sync).bind ?_ fun _ _ h => h
  rintro _ _ rfl
  exact sat_bind.mpr (sat_get.mpr ⟨h.sync.strengthen rfl hstate, rfl⟩)

/-- A start from a directory a crash left. -/
theorem sat_recover (h : sh.Kept crc32 False m.files) (now : Nat) :
    Sat (recover decode crc32 now) m
      (fun (w, replayed) m' => sh.toPast.Whole crc32 m'.files ∧ w = openWriter m'.files ∧
        ∃ n ≤ sh.retired, replayed = (sh.history.drop n).foldl (Replayed.add now)
          { memtable := [], marks := CollectMarks.load crc32 (m.files.read .marks), records := 0 })
      (fun _ m' => sh.toPast.Stands crc32 m'.files ∧ m.fault ≠ none) := by
  unfold recover
  refine sat_bind.mpr (sat_get.mpr ?_)
  refine (sat_recoverUnfinishedCompaction h).bind ?_ fun _ _ h => ⟨⟨sh, rfl, h.1⟩, h.2⟩
  rintro _ m₁ ⟨h₁, hfault₁, hstate₁⟩
  refine sat_bind.mpr (sat_get.mpr ?_)
  obtain ⟨offset, hread, n, hn, hb⟩ := h₁.readCheckpoint
  rw [hread]
  dsimp only
  rw [h₁.replayFrom hb]
  dsimp only
  rw [← hfault₁]
  refine (sat_truncateTail h₁ hstate₁).bind ?_ fun _ _ h => h
  rintro _ m₂ ⟨h₂, hfault₂, hstate₂⟩
  rw [← hfault₂]
  refine (sat_openWal h₂ hstate₂).bind ?_ fun _ _ h => ⟨⟨sh.whole, rfl, h.1⟩, h.2⟩
  rintro w m₃ ⟨h₃, hw⟩
  exact ⟨⟨sh.whole, rfl, rfl, h₃⟩, hw, n, hn, rfl⟩

end

/-! ## A directory with nothing in it -/

/-- There is nothing but a WAL, and the WAL is empty. -/
def Blank (files : JournalFiles) : Prop :=
  ∀ v, files.Views v → ∀ name i, v name = some i → name = .wal ∧ i < files.fresh ∧ files.content i = []

theorem Blank.view {files : JournalFiles} (h : Blank files) {name : FileName} (hname : name ≠ .wal) :
    files.view name = none := by
  rcases hi : files.view name with _ | i
  · rfl
  · exact absurd (h _ (Names.views_view files) name i hi).1 hname

theorem Blank.read_wal {files : JournalFiles} (h : Blank files) :
    files.read .wal = none ∨ files.read .wal = some [] := by
  unfold Names.read
  rcases hi : files.view .wal with _ | i
  · exact .inl rfl
  · rw [Option.map_some, (h _ (Names.views_view files) _ i hi).2.2]
    exact .inr rfl

theorem Blank.sync {files : JournalFiles} (h : Blank files) : Blank files.sync := by
  intro v hv
  rw [Names.views_sync hv]
  exact h _ (Names.views_view files)

theorem Blank.crash {files : JournalFiles} (h : Blank files) (mask : List Bool) : Blank (files.crash mask) :=
  fun v hv => h v (Names.views_crash hv)

theorem Blank.replace {files : JournalFiles} (h : Blank files) : Blank (files.replace .wal []) := by
  refine Names.views_push fun v hv => ?_
  have hold : ∀ name i, v name = some i → name = .wal ∧ i < files.fresh + 1 ∧
      Function.update files.content files.fresh [] i = [] := by
    intro name i hi
    obtain ⟨hname, hlt, hnil⟩ := h v hv name i hi
    exact ⟨hname, hlt.trans (Nat.lt_succ_self _), by rw [Function.update_of_ne hlt.ne, hnil]⟩
  refine ⟨hold, fun name i hi => ?_⟩
  simp only [Change.apply, List.foldl_cons, List.foldl_nil, Function.update_apply] at hi
  split at hi
  next heq =>
    cases hi
    exact ⟨heq, Nat.lt_succ_self _, Function.update_self _ _ _⟩
  next => exact hold name i hi

/-- Once an empty WAL is there. -/
theorem Blank.kept {files : JournalFiles} (h : Blank files) (hsynced : files.pending = []) {inode : Nat}
    (hwal : files.view .wal = some inode) {past : Past decode} (hhistory : past.history = [])
    (hmarks : past.marks none) :
    ({ past with cut := 0, tail := [], inode } : Shape decode).Kept crc32 True files := by
  have hview : files.view = files.durable := by simp [Names.view, hsynced]
  obtain ⟨-, hlt, hnil⟩ := h _ (Names.views_view files) _ _ hwal
  refine ⟨⟨.inl rfl, Nat.zero_le _, Nat.zero_le _, ?_, ?_⟩, fun _ => .wal, fun v hv => ?_⟩
  · simp [hnil, hhistory, frames]
  · simp [hnil]
  · rw [Names.views_of_synced hsynced hv, ← hview]
    refine ⟨hwal, fun name i hi => ?_, fun i hi => ?_, fun i hi => ?_, ?_⟩
    · obtain ⟨hname, hlt, -⟩ := h _ (Names.views_view files) name i hi
      exact ⟨hname.symm, hlt⟩
    · simp [h.view (show FileName.ckpt ≠ .wal by decide)] at hi
    · simp [h.view (show FileName.state ≠ .wal by decide)] at hi
    · rw [h.view (show FileName.marks ≠ .wal by decide)]
      exact hmarks

variable (crc32) in
theorem sat_recover_blank {m : Machine} (h : Blank m.files) {past : Past decode} (hhistory : past.history = [])
    (hmarks : past.marks none) (now : Nat) :
    Sat (recover decode crc32 now) m
      (fun (w, replayed) m' => past.Whole crc32 m'.files ∧
        w = openWriter m'.files ∧ replayed = { memtable := [], marks := CollectMarks.load crc32 none, records := 0 })
      (fun _ m' => Blank m'.files ∧ m.fault ≠ none) := by
  unfold recover
  refine sat_bind.mpr (sat_get.mpr ?_)
  have hstate : readCompactionState m.files = .ok none := by
    rw [readCompactionState, Names.read, h.view (by decide), Option.map_none]
  have hread : m.files.read .marks = none := by
    rw [Names.read, h.view (by decide), Option.map_none]
  unfold recoverUnfinishedCompaction
  refine sat_bind.mpr (sat_bind.mpr (sat_get.mpr ?_))
  rw [hstate, hread]
  refine sat_pure.mpr (sat_bind.mpr (sat_get.mpr ?_))
  have hckpt : readCheckpoint m.files = .ok 0 := by
    rw [readCheckpoint, Names.read, h.view (by decide), Option.map_none]
  rw [hckpt]
  dsimp only
  have hreplay : ∀ state : Replayed Row, replayFrom decode crc32 now (m.files.read .wal) 0 state = .ok (0, state) := by
    intro state
    rcases h.read_wal with hwal | hwal <;> simp [replayFrom, hwal]
  rw [hreplay]
  dsimp only
  have hlen : ((m.files.read .wal).getD []).length = 0 := by
    rcases h.read_wal with hwal | hwal <;> simp [hwal]
  unfold truncateTail
  refine sat_bind.mpr (sat_bind.mpr (sat_get.mpr ?_))
  dsimp only
  rw [hlen, if_neg (lt_irrefl _)]
  refine sat_pure.mpr ?_
  have hopen : Blank (if (m.files.view .wal).isNone then m.files.replace .wal [] else m.files) := by
    split
    · exact h.replace
    · exact h
  have hthere : ∃ i, (if (m.files.view .wal).isNone then m.files.replace .wal [] else m.files).view .wal = some i := by
    split
    · exact ⟨_, by rw [Names.view_replace, if_pos rfl]⟩
    next hsome => exact Option.isSome_iff_exists.mp (by simpa [Option.isSome_iff_ne_none] using hsome)
  generalize hfiles : (if (m.files.view .wal).isNone then m.files.replace .wal [] else m.files) = files at hopen hthere
  unfold openWal
  refine sat_bind.mpr ?_
  refine (sat_call_keeps h (by rw [hfiles]; exact hopen)).bind ?_ fun _ _ h => h
  rw [hfiles]
  rintro _ _ rfl
  refine (sat_call_keeps hopen hopen).bind ?_ fun _ _ h => h
  rintro _ _ rfl
  refine (sat_call_keeps hopen hopen.sync).bind ?_ fun _ _ h => h
  rintro _ _ rfl
  obtain ⟨i, hi⟩ := hthere
  exact sat_bind.mpr (sat_get.mpr ⟨⟨_, rfl, rfl, hopen.sync.kept rfl hi hhistory hmarks⟩, rfl, rfl⟩)

end Signy
