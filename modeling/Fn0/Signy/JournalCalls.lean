/-
What the operations of the journal leave in its directory, whatever call fails.

Before the rename of `compact_wal` the directory keeps its shape. When a call fails after it, each directory
a crash can leave is still good for a replay; the files the process goes on with are not.
-/
import Mathlib
import Fn0.Lib.Track
import Fn0.Signy.JournalCrash

namespace Signy

open Eff

variable {Row : Type} {decode : Decode Row} {crc32 : Bytes → UInt32}

/-! ## Calls -/

section Calls

variable {m : Machine} {E : JournalError → Machine → Prop}

theorem sat_call {name : Call} {f : JournalFiles → JournalFiles} {Q : Unit → Machine → Prop}
    (hok : Q () (m.setFiles (f m.files)))
    (hfail : ∀ took, m.fault = some ⟨name, took⟩ → E .io (if took then m.setFiles (f m.files) else m)) :
    Sat (call name f) m Q E := by
  unfold call
  simp only [sat_bind, sat_get]
  rcases hfault : m.fault with _ | ⟨failing, took⟩
  · simpa using hok
  · dsimp only
    split
    next heq =>
      simp only [sat_bind, sat_set, sat_throw]
      exact hfail took (by rw [hfault, heq])
    next => simpa using hok

/-- A call of a computation whose failure leaves the files in `P` when `P` holds before and after it. -/
theorem sat_call_keeps {P : JournalFiles → Prop} {name : Call} {f : JournalFiles → JournalFiles}
    (hP : P m.files) (hf : P (f m.files)) :
    Sat (call name f) m (fun _ m' => m' = m.setFiles (f m.files)) (fun _ m' => P m'.files ∧ m.fault ≠ none) := by
  refine sat_call rfl fun took htook => ⟨?_, by simp [htook]⟩
  cases took
  · exact hP
  · exact hf

theorem sat_replaceFile {P : JournalFiles → Prop} {calls : Part → Call} {name : FileName} {bytes : Bytes}
    (hP : P m.files) (hreplace : P (m.files.replace name bytes)) (hsync : ∀ files, P files → P files.sync) :
    Sat (replaceFile calls name bytes) m (fun _ m' => m' = m.setFiles (m.files.replace name bytes).sync)
      (fun _ m' => P m'.files ∧ m.fault ≠ none) := by
  unfold replaceFile
  refine (sat_call_keeps hP hP).bind ?_ fun _ _ h => h
  rintro _ _ rfl
  refine (sat_call_keeps hP hP).bind ?_ fun _ _ h => h
  rintro _ _ rfl
  refine (sat_call_keeps hP hreplace).bind ?_ fun _ _ h => h
  rintro _ _ rfl
  exact sat_call_keeps hreplace (hsync _ hreplace)

theorem exec_replaceFile_of_ne {calls : Part → Call} (h : ∀ part took, m.fault ≠ some ⟨calls part, took⟩)
    (name : FileName) (bytes : Bytes) :
    (replaceFile calls name bytes).exec m = (.ok (), m.setFiles (m.files.replace name bytes).sync) := by
  have hsat : Sat (replaceFile calls name bytes) m
      (fun _ m' => m' = m.setFiles (m.files.replace name bytes).sync) (fun _ _ => False) := by
    unfold replaceFile
    refine sat_bind.mpr (sat_call ?_ fun took htook => h .write took htook)
    refine sat_bind.mpr (sat_call ?_ fun took htook => h .sync took htook)
    refine sat_bind.mpr (sat_call ?_ fun took htook => h .rename took htook)
    exact sat_call rfl fun took htook => h .syncDir took htook
  obtain ⟨_, _, hexec, rfl⟩ := hsat.exists_ok
  exact hexec

end Calls

/-! ## Compaction -/

section Compaction

variable {sh : Shape decode} {strict : Prop} {m : Machine}

theorem Shape.Kept.openWriter {files : JournalFiles} (h : sh.Kept crc32 strict files) :
    Signy.openWriter files = ⟨sh.inode, size crc32 (sh.history.drop sh.cut) + sh.tail.length⟩ := by
  simp [Signy.openWriter, h.view_wal, h.read_wal, size]

theorem Bytes.toNatLE_checkpoint {files : JournalFiles} (h : sh.Kept crc32 strict files) {offset n : Nat}
    (hb : Boundary crc32 sh.history sh.cut offset n) : Bytes.toNatLE (Bytes.ofNatLE 8 offset) = offset := by
  have hle := hb.offset_le
  have hshort := h.wal.short
  rw [h.wal.bytes, List.length_append] at hshort
  simp only [size, maxFileLen] at hle hshort
  exact Bytes.toNatLE_ofNatLE (by omega)

theorem sat_writeCheckpoint (h : sh.Kept crc32 strict m.files) (calls : Part → Call) {offset : Nat}
    (hgood : sh.Good crc32 offset) :
    Sat (writeCheckpoint calls offset) m
      (fun _ m' => sh.Kept crc32 strict m'.files ∧
        m' = m.setFiles (m.files.replace .ckpt (Bytes.ofNatLE 8 offset)).sync)
      (fun _ m' => sh.Kept crc32 strict m'.files ∧ m.fault ≠ none) := by
  have hreplace : sh.Kept crc32 strict (m.files.replace .ckpt (Bytes.ofNatLE 8 offset)) := by
    obtain ⟨n, hn, hb⟩ := hgood
    refine h.replace (by decide) (by simp) (fun _ => ⟨by simp, n, hn, ?_⟩) (by simp) (by simp)
    rwa [Bytes.toNatLE_checkpoint h hb]
  refine (sat_replaceFile h hreplace fun _ h => h.sync).mono ?_ fun _ _ h => h
  rintro _ _ rfl
  exact ⟨hreplace.sync, rfl⟩

/-- An intent that is there may be restored, and nothing of it is left. -/
theorem sat_restoreCompaction (h : sh.Kept crc32 strict m.files) {state : CompactionState}
    (hgood : sh.Good crc32 state.offset) :
    Sat (restoreCompaction state) m
      (fun _ m' => sh.Kept crc32 strict m'.files ∧ m'.fault = m.fault ∧ m'.files.view .state = none)
      (fun _ m' => sh.Kept crc32 strict m'.files ∧ m.fault ≠ none) := by
  unfold restoreCompaction
  refine (sat_writeCheckpoint h _ hgood).bind ?_ fun _ _ h => h
  rintro _ m₁ ⟨h₁, rfl⟩
  have htmp := h₁.remove (show FileName.tmp ≠ .wal by decide) (by decide)
  refine (sat_call_keeps h₁ htmp).bind ?_ fun _ _ h => h
  rintro _ _ rfl
  have hstate := htmp.remove (show FileName.state ≠ .wal by decide) (by decide)
  refine (sat_call_keeps htmp hstate).bind ?_ fun _ _ h => h
  rintro _ _ rfl
  refine (sat_call_keeps hstate hstate.sync).mono ?_ fun _ _ h => h
  rintro _ _ rfl
  refine ⟨hstate.sync, rfl, ?_⟩
  simp [Machine.setFiles, Names.remove, Change.apply]

theorem sat_removeCompactionState (h : sh.Kept crc32 strict m.files) :
    Sat removeCompactionState m
      (fun _ m' => sh.Kept crc32 strict m'.files ∧ m'.fault = m.fault ∧ m'.files.view .state = none ∧
        (m.files.pending = [] → m'.files.pending = []) ∧ m'.files.view .wal = m.files.view .wal ∧
        m'.files.content = m.files.content)
      (fun _ m' => sh.Kept crc32 strict m'.files ∧
        ∃ took, m.fault = some ⟨.removeState, took⟩ ∨ m.fault = some ⟨.syncRemoved, took⟩) := by
  unfold removeCompactionState
  simp only [sat_bind, sat_get]
  split
  next hnone => exact ⟨h, rfl, by simpa using hnone, id, rfl, rfl⟩
  next =>
    have hremove := h.remove (show FileName.state ≠ .wal by decide) (by decide)
    refine sat_bind.mpr (sat_call ?_ fun took htook => ⟨?_, took, .inl htook⟩)
    · refine sat_call ⟨hremove.sync, rfl, ?_, fun _ => rfl, ?_, rfl⟩ fun took htook =>
        ⟨?_, took, .inr htook⟩
      · simp [Machine.setFiles, Names.remove, Change.apply]
      · simp [Machine.setFiles, Names.remove, Change.apply]
      · cases took
        · exact hremove
        · exact hremove.sync
    · cases took
      · exact h
      · exact hremove

/-- The calls of `compact_wal` once the replacement may be in place. -/
def Fault.late (fault : Fault) : Bool :=
  match fault.call with
  | .rename => fault.took
  | .syncParent | .reopen | .removeState | .syncRemoved => true
  | _ => false

def Late (fault : Option Fault) : Prop := ∃ f, fault = some f ∧ f.late

variable (crc32) in
/-- What a failed `compact_wal` leaves. -/
def Shape.Failed (sh : Shape decode) (fault : Option Fault) (files : JournalFiles) : Prop :=
  sh.Kept crc32 True files ∨ Late fault ∧ Safe crc32 sh.toPast files

/-- From the rename on. -/
theorem sat_renamed {n k : Nat} (h : sh.Ready crc32 n k m.files) (retainedLen : Nat) :
    Sat ((do
        call .rename (Names.rename .tmp .wal)
        call .syncParent Names.sync
        call .reopen id
        let m ← get
        removeCompactionState
        return { inode := (openWriter m.files).inode, goodLen := retainedLen }) : Op Writer) m
      (fun w m' => (sh.behind n k).Kept crc32 True m'.files ∧ w = ⟨k, retainedLen⟩)
      (fun _ m' => sh.Failed crc32 m.fault m'.files) := by
  obtain ⟨hsafe, hkept⟩ := h.renamed
  refine sat_bind.mpr (sat_call ?_ fun took htook => ?_)
  · refine sat_bind.mpr (sat_call ?_ fun took htook => .inr ⟨⟨_, htook, rfl⟩, ?_⟩)
    · refine sat_bind.mpr (sat_call ?_ fun took htook => .inr ⟨⟨_, htook, rfl⟩, ?_⟩)
      · simp only [sat_bind, sat_get]
        refine (sat_removeCompactionState hkept).mono ?_ ?_
        · rintro _ m' ⟨hkept', -, hstate, hsynced, -, -⟩
          exact ⟨hkept'.strengthen (hsynced rfl) hstate,
            congrArg (fun w : Writer => (⟨w.inode, retainedLen⟩ : Writer)) hkept.openWriter⟩
        · rintro _ m' ⟨hkept', took, htook | htook⟩
          · exact .inr ⟨⟨_, htook, rfl⟩, hkept'.safe⟩
          · exact .inr ⟨⟨_, htook, rfl⟩, hkept'.safe⟩
      · cases took
        · exact hkept.safe
        · exact hkept.safe
    · cases took
      · exact hsafe
      · exact hkept.safe
  · cases took
    · exact .inl h.kept
    · exact .inr ⟨⟨_, htook, rfl⟩, hsafe⟩

theorem Shape.Kept.content_replace {files : JournalFiles} (h : sh.Kept crc32 strict files) {other : FileName}
    {i : Nat} (hi : files.view other = some i) (name : FileName) (bytes : Bytes) :
    (files.replace name bytes).content i = files.content i := by
  obtain ⟨owner, hviews⟩ := h.views
  exact Function.update_of_ne ((hviews _ (Names.views_view _)).owned _ _ hi).2.ne _ _

/-- The intent and the checkpoint make a directory with a replacement ready. -/
theorem Shape.Kept.ready {files : JournalFiles} (h : sh.Kept crc32 True files) {k offset n : Nat}
    (hk : files.view .tmp = some k) (hbytes : files.content k = frames crc32 (sh.history.drop n))
    (hb : Boundary crc32 sh.history sh.cut offset n) (hn : n ≤ sh.retired) {intent : Bytes}
    (hintent : sh.Kept crc32 True (files.replace .state intent).sync) :
    sh.Ready crc32 n k ((files.replace .state intent).sync.replace .ckpt (Bytes.ofNatLE 8 0)).sync := by
  have hzero : sh.Good crc32 (Bytes.toNatLE (Bytes.ofNatLE 8 0)) := h.wal.good_zero
  have hview : (files.replace .state intent).sync.view .tmp = some k := by
    rw [Names.view_sync, Names.view_replace, if_neg (by decide), hk]
  refine ⟨(hintent.replace (by decide) (by simp) (fun _ => ⟨by simp, hzero⟩) (by simp) (by simp)).sync, rfl, ?_, ?_, ?_,
    hb.low, hb.high, hn⟩
  · rw [Names.view_sync, Names.view_replace, if_neg (by decide), hview]
  · rw [Names.content_sync, hintent.content_replace hview, Names.content_sync, h.content_replace hk, hbytes]
  · exact ⟨_, by rw [Names.view_sync, Names.view_replace, if_pos rfl], Function.update_self _ _ _⟩

/-- `compact_wal` from a WAL that is whole. -/
theorem sat_compactFrom (h : sh.Kept crc32 True m.files) (htail : sh.tail = []) {offset n : Nat}
    (hb : Boundary crc32 sh.history sh.cut offset n) (hn : n ≤ sh.retired) :
    Sat (compactFrom offset (openWriter m.files)) m
      (fun w m' => ∃ k, (sh.behind n k).Kept crc32 True m'.files ∧ w = openWriter m'.files)
      (fun _ m' => sh.Failed crc32 m.fault m'.files) := by
  have hoffset := hb.offset_le
  have hwriter := h.openWriter
  rw [htail, List.length_nil, Nat.add_zero] at hwriter
  unfold compactFrom
  rw [hwriter, if_neg (by dsimp only; omega)]
  dsimp only
  refine (sat_call_keeps h h).bind ?_ fun _ _ h => .inl h.1
  rintro _ _ rfl
  refine (sat_call_keeps h h.createTmp).bind ?_ fun _ _ h => .inl h.1
  rintro _ m₁ hm₁
  have h₁ : sh.Kept crc32 True m₁.files := hm₁ ▸ h.createTmp
  obtain ⟨k, hk₁⟩ : ∃ k, m₁.files.view .tmp = some k := hm₁ ▸ Names.view_create _ _
  have hfault : m₁.fault = m.fault := hm₁ ▸ rfl
  have hcopied : (((m₁.files.read .wal).getD []).drop offset).take
      (size crc32 (sh.history.drop sh.cut) - offset) = frames crc32 (sh.history.drop n) := by
    rw [h₁.read_wal, Option.getD_some, hb.drop_frames, htail, List.append_nil, List.take_of_length_le]
    simp only [size] at hoffset ⊢
    omega
  refine sat_bind.mpr (sat_get.mpr ?_)
  rw [hcopied]
  refine (sat_call_keeps h₁ (h₁.writeTmp _)).bind ?_ fun _ _ h => .inl h.1
  rintro _ m₂ hm₂
  have hfault₂ : m₂.fault = m.fault := by
    rw [hm₂]
    exact hfault
  have hwrite : m₂.files = m₁.files.setContent k (frames crc32 (sh.history.drop n)) := by
    rw [hm₂, Machine.setFiles, Names.write, hk₁]
  have h₂ : sh.Kept crc32 True m₂.files := hwrite ▸ h₁.setTmp hk₁ _
  have hk₂ : m₂.files.view .tmp = some k := by rw [hwrite, Names.view_setContent, hk₁]
  have hbytes₂ : m₂.files.content k = frames crc32 (sh.history.drop n) := by
    rw [hwrite]
    exact Function.update_self _ _ _
  rw [if_neg (by simp only [size] at hoffset ⊢; omega)]
  refine (sat_call_keeps h₂ h₂).bind ?_ fun _ _ h => .inl h.1
  rintro _ _ rfl
  have hgood : sh.Good crc32 offset := ⟨n, hn, hb⟩
  have hintent : sh.Kept crc32 True (m₂.files.replace .state (CompactionState.bytes {
      offset, sourceLen := size crc32 (sh.history.drop sh.cut),
      retainedLen := size crc32 (sh.history.drop sh.cut) - offset })) := by
    refine h₂.replace (by decide) (by simp) (by simp) (fun _ => ⟨by simp [CompactionState.bytes], ?_⟩) (by simp)
    rw [CompactionState.bytes, List.append_assoc, List.take_left' (by simp), Bytes.toNatLE_checkpoint h hb]
    exact hgood
  refine (sat_replaceFile h₂ hintent fun _ h => h.sync).bind ?_ fun _ _ h => .inl h.1
  rintro _ _ rfl
  refine (sat_writeCheckpoint hintent.sync _ h.wal.good_zero).bind ?_ fun _ _ h => .inl h.1
  rintro _ _ ⟨-, rfl⟩
  refine (sat_renamed (h₂.ready hk₂ hbytes₂ hb hn hintent.sync) _).mono ?_ ?_
  · rintro _ m' ⟨hkept, rfl⟩
    refine ⟨k, hkept, ?_⟩
    rw [hkept.openWriter]
    simp only [Shape.behind, List.length_nil, Writer.mk.injEq, true_and]
    omega
  · intro _ m' hfailed
    rw [← hfault₂]
    exact hfailed

/-- The offset of an intent that is read. -/
theorem Shape.Kept.readCompactionState {files : JournalFiles} (h : sh.Kept crc32 strict files) :
    Signy.readCompactionState files = .ok none ∧ files.view .state = none ∨
      ∃ state, Signy.readCompactionState files = .ok (some state) ∧
        (strict ∨ files.view .tmp ≠ none → sh.Good crc32 state.offset) := by
  obtain ⟨owner, hviews⟩ := h.views
  have hfit := hviews _ (Names.views_view files)
  unfold Signy.readCompactionState Names.read
  rcases hstate : files.view .state with _ | i
  · exact .inl ⟨rfl, rfl⟩
  · obtain ⟨hlen, hgood⟩ := hfit.state i hstate
    rw [Option.map_some]
    dsimp only
    rw [if_pos hlen]
    exact .inr ⟨_, rfl, hgood⟩

/-- What a process goes on with after `compact_wal`. -/
theorem sat_compactWal (h : sh.Kept crc32 True m.files) (htail : sh.tail = []) {offset n : Nat}
    (hb : Boundary crc32 sh.history sh.cut offset n) (hn : n ≤ sh.retired) :
    Sat (compactWal offset (openWriter m.files)) m
      (fun w m' => ∃ sh' : Shape decode, sh'.toPast = sh.toPast ∧ sh'.tail = [] ∧ sh'.Kept crc32 True m'.files ∧
        w = openWriter m'.files)
      (fun _ m' => sh.Failed crc32 m.fault m'.files) := by
  have hfrom : ∀ m' : Machine, m'.fault = m.fault → sh.Kept crc32 True m'.files →
      Sat (compactFrom offset (openWriter m'.files)) m'
        (fun w m' => ∃ sh' : Shape decode, sh'.toPast = sh.toPast ∧ sh'.tail = [] ∧ sh'.Kept crc32 True m'.files ∧
          w = openWriter m'.files)
        (fun _ m' => sh.Failed crc32 m.fault m'.files) := by
    intro m' hfault hkept
    rw [← hfault]
    refine (sat_compactFrom hkept htail hb hn).mono ?_ fun _ _ h => h
    rintro w m'' ⟨k, hkept', hw⟩
    exact ⟨sh.behind n k, rfl, rfl, hkept', hw⟩
  unfold compactWal
  refine sat_bind.mpr (sat_get.mpr ?_)
  rcases h.readCompactionState with ⟨hread, -⟩ | ⟨state, hread, hgood⟩
  · rw [hread]
    exact hfrom m rfl h
  · rw [hread]
    dsimp only
    split
    · split
      · exact .inl h
      · -- the rename did not happen: the old WAL is put back, and the compaction begins again
        refine (sat_restoreCompaction h (hgood (.inl trivial))).bind ?_ fun _ _ h => .inl h.1
        rintro _ m₁ ⟨h₁, hfault, -⟩
        have hwriter : ({ openWriter m.files with goodLen := ((m.files.read .wal).getD []).length } : Writer) =
            openWriter m₁.files := by
          rw [h₁.openWriter, h.openWriter, h.read_wal]
          simp [size]
        rw [hwriter]
        exact hfrom m₁ hfault h₁
    · split
      · exact .inl h
      · refine (sat_call_keeps h h.sync).bind ?_ fun _ _ h => .inl h.1
        rintro _ _ rfl
        refine (sat_removeCompactionState h.sync).bind ?_ fun _ _ h => .inl h.1
        rintro _ m₁ ⟨h₁, -⟩
        refine (sat_call_keeps h₁ h₁).bind ?_ fun _ _ h => .inl h.1
        rintro _ _ rfl
        exact sat_bind.mpr (sat_get.mpr ⟨sh, rfl, htail, h₁, rfl⟩)

end Compaction

end Signy
