/-
What a journal puts back after a crash.

A run is followed with the records that went into the WAL, in order, and with how many of them the flush loop
has asked to retire. Whatever the crash leaves, replay starts at a record that was not retired or before it:
the checkpoint is an offset into the WAL it stands beside, and an intent of compaction that is followed by a
restore holds one too. This breaks when `compact_wal` fails after its rename and the process goes on.
-/
import Mathlib
import Fn0.Signy.JournalFacts

namespace Signy

open Eff

variable {Row : Type} {decode : Decode Row} (crc32 : Bytes → UInt32)

/-! ## A run with its history -/

/-- The records that are whole in the first bytes of a batch. -/
def wholeWithin : List (Entry decode) → Nat → List (Entry decode)
  | [], _ => []
  | entry :: entries, bytes =>
    let len := (frame crc32 entry.data).length
    if len ≤ bytes then entry :: wholeWithin entries (bytes - len) else []

/-- A journal with its history: the records that went into the WAL, how many of them the offsets cover that
the flush loop asked to retire, and how many the offset covers that it has now. -/
structure Traced (decode : Decode Row) where
  journal : Journal Row
  history : List (Entry decode)
  retired : Nat
  taken : Nat

/-- The records an action puts into the WAL: all of a batch that is synced, and of one whose write stopped
those that got there whole. -/
def Journal.written (j : Journal Row) : Action decode → List (Entry decode)
  | .batch _ batch outcome =>
    match j.process.bind Process.writer with
    | none => []
    | some writer =>
      let entries := batchEntries batch
      match outcome.within ((j.files.content writer.inode).length + (frames crc32 entries).length) with
      | .done => entries
      | .failed => []
      | .torn bytes => wholeWithin crc32 entries bytes
  | _ => []

def Journal.flush (j : Journal Row) : Flush :=
  match j.process with
  | some process => process.flush
  | none => .idle

def Traced.next (t : Traced decode) (event : Event decode) : Traced decode where
  journal := t.journal.next crc32 event
  history := t.history ++ t.journal.written crc32 event.action
  retired := match event.action with
    | .setCheckpoint _ | .compactCheckpoint _ _ =>
      if t.journal.flush = .idle then t.retired else max t.retired t.taken
    | _ => t.retired
  taken := match event.action with
    | .checkpoint _ _ => if t.journal.flush = .idle then t.history.length else t.taken
    | _ => t.taken

/-- An empty directory. -/
def Traced.fresh : Traced decode where
  journal :=
    { files := { durable := fun _ => none, pending := [], content := fun _ => [], fresh := 0 }, process := none }
  history := []
  retired := 0
  taken := 0

def Traced.run (t : Traced decode) (events : List (Event decode)) : Traced decode := events.foldl (Traced.next crc32) t

/-! ## Offsets -/

/-- `offset` stands before record `n` in a WAL that begins with record `cut`. -/
structure Boundary (history : List (Entry decode)) (cut offset n : Nat) : Prop where
  low : cut ≤ n
  high : n ≤ history.length
  offset_eq : offset = size crc32 ((history.drop cut).take (n - cut))

/-- An offset replay may start from. -/
def Good (history : List (Entry decode)) (retired cut offset : Nat) : Prop :=
  ∃ n ≤ retired, Boundary crc32 history cut offset n

variable {crc32}

theorem Boundary.append {history : List (Entry decode)} {cut offset n : Nat}
    (h : Boundary crc32 history cut offset n) (entries : List (Entry decode)) :
    Boundary crc32 (history ++ entries) cut offset n := by
  have hlow := h.low
  have hhigh := h.high
  refine ⟨hlow, by simp; omega, ?_⟩
  rw [List.drop_append_of_le_length (by omega), List.take_append_of_le_length (by simp; omega)]
  exact h.offset_eq

theorem Good.mono {history : List (Entry decode)} {retired retired' cut offset : Nat}
    (h : Good crc32 history retired cut offset) (hle : retired ≤ retired') (entries : List (Entry decode)) :
    Good crc32 (history ++ entries) retired' cut offset := by
  obtain ⟨n, hn, hb⟩ := h
  exact ⟨n, hn.trans hle, hb.append entries⟩

/-- The end of the WAL. -/
theorem Boundary.full {history : List (Entry decode)} {cut : Nat} (h : cut ≤ history.length) :
    Boundary crc32 history cut (size crc32 (history.drop cut)) history.length := by
  refine ⟨h, le_rfl, ?_⟩
  rw [List.take_of_length_le (by simp)]

theorem Boundary.zero {history : List (Entry decode)} {cut : Nat} (h : cut ≤ history.length) :
    Boundary crc32 history cut 0 cut := by
  refine ⟨le_rfl, h, ?_⟩
  simp [size, frames]

/-- What is behind an offset. -/
theorem Boundary.drop_frames {history : List (Entry decode)} {cut offset n : Nat}
    (h : Boundary crc32 history cut offset n) (tail : Bytes) :
    (frames crc32 (history.drop cut) ++ tail).drop offset = frames crc32 (history.drop n) ++ tail := by
  have hlow := h.low
  have hsplit : frames crc32 (history.drop cut) =
      frames crc32 ((history.drop cut).take (n - cut)) ++ frames crc32 (history.drop n) := by
    rw [← frames_append]
    congr 1
    rw [show history.drop n = (history.drop cut).drop (n - cut) by rw [List.drop_drop]; congr 1; omega,
      List.take_append_drop]
  rw [hsplit, List.append_assoc, h.offset_eq, size, List.drop_left]

theorem Boundary.offset_le {history : List (Entry decode)} {cut offset n : Nat}
    (h : Boundary crc32 history cut offset n) : offset + size crc32 (history.drop n) = size crc32
    (history.drop cut) := by
  have hlen := congrArg List.length (h.drop_frames [])
  have hoff : offset ≤ size crc32 (history.drop cut) := by
    rw [h.offset_eq]
    nth_rewrite 2 [← List.take_append_drop (n - cut) (history.drop cut)]
    rw [size_append]
    omega
  simp only [List.append_nil, List.length_drop] at hlen
  simp only [size] at hoff ⊢
  omega

variable (crc32) in
/-- What is written of a batch whose write stops: whole records, and then one that is cut off. -/
theorem take_frames (entries : List (Entry decode)) (bytes : Nat) :
    ∃ tail, Torn crc32 tail ∧
      (frames crc32 entries).take bytes = frames crc32 (wholeWithin crc32 entries bytes) ++ tail := by
  induction entries generalizing bytes with
  | nil => exact ⟨[], .inl rfl, by simp [frames, wholeWithin]⟩
  | cons entry entries ih =>
    have hcons : frames crc32 (entry :: entries) = frame crc32 entry.data ++ frames crc32 entries := by simp [frames]
    rw [hcons, wholeWithin]
    split
    next hle =>
      obtain ⟨tail, htail, htake⟩ := ih (bytes - (frame crc32 entry.data).length)
      refine ⟨tail, htail, ?_⟩
      rw [List.take_append, List.take_of_length_le hle, htake]
      simp [frames]
    next hlt =>
      refine ⟨(frame crc32 entry.data).take bytes, .inr ⟨entry.data, (frame crc32 entry.data).drop bytes,
        entry.length_data, ?_, (List.take_append_drop _ _).symm⟩, ?_⟩
      · simp only [ne_eq, List.drop_eq_nil_iff]
        omega
      · rw [List.take_append_of_le_length (by omega)]
        simp [frames]

/-! ## The files -/

/-- What has happened to a journal: the records that went into the WAL, how many of them may be gone, and what
may be in the file of the marks. -/
structure Past (decode : Decode Row) where
  history : List (Entry decode)
  retired : Nat
  marks : Option Bytes → Prop

/-- What a directory is to hold: a WAL that begins with record `cut` of the history and may end in a record
that is cut off. -/
structure Shape (decode : Decode Row) extends Past decode where
  cut : Nat
  tail : Bytes
  inode : Nat

variable (crc32) in
/-- The WAL of a shape. -/
structure Shape.Wal (sh : Shape decode) (content : Nat → Bytes) : Prop where
  torn : Torn crc32 sh.tail
  cut_le : sh.cut ≤ sh.history.length
  cut_retired : sh.cut ≤ sh.retired
  bytes : content sh.inode = frames crc32 (sh.history.drop sh.cut) ++ sh.tail
  short : (content sh.inode).length ≤ maxFileLen

variable (crc32) in
def Shape.Good (sh : Shape decode) (offset : Nat) : Prop := Signy.Good crc32 sh.history sh.retired sh.cut offset

variable (crc32) in
/-- Entries that go with a shape. Each inode belongs to one name. Replay may start at the checkpoint, and at the
offset of an intent that recovery would restore; when `strict`, at that of any intent. -/
structure Shape.Fits (sh : Shape decode) (owner : Nat → FileName) (strict : Prop) (content : Nat → Bytes)
    (fresh : Nat) (v : Entries FileName) : Prop where
  wal : v .wal = some sh.inode
  owned : ∀ name i, v name = some i → owner i = name ∧ i < fresh
  ckpt : ∀ i, v .ckpt = some i → (content i).length = 8 ∧ sh.Good crc32 (Bytes.toNatLE (content i))
  state : ∀ i, v .state = some i → (content i).length = 24 ∧
    (strict ∨ v .tmp ≠ none → sh.Good crc32 (Bytes.toNatLE ((content i).take 8)))
  marks : sh.marks ((v .marks).map content)

variable (crc32) in
/-- A directory goes with a shape whatever a crash keeps. -/
structure Shape.Kept (sh : Shape decode) (strict : Prop) (files : JournalFiles) : Prop where
  wal : sh.Wal crc32 files.content
  views : ∃ owner, ∀ v, files.Views v → sh.Fits crc32 owner strict files.content files.fresh v

section Updates

variable {sh : Shape decode} {strict : Prop} {files : JournalFiles}

theorem Shape.Wal.good_zero {content : Nat → Bytes} (h : sh.Wal crc32 content) : sh.Good crc32 0 :=
  ⟨sh.cut, h.cut_retired, .zero h.cut_le⟩

/-- Contents that no entry of the view refers to do not matter. -/
theorem Shape.Fits.congr {owner owner' : Nat → FileName} {content content' : Nat → Bytes} {fresh fresh' : Nat}
    {v : Entries FileName} (h : sh.Fits crc32 owner strict content fresh v) (hfresh : fresh ≤ fresh')
    (howner : ∀ i < fresh, owner' i = owner i)
    (hcontent : ∀ i < fresh, owner i ≠ .wal → owner i ≠ .tmp → content' i = content i) :
    sh.Fits crc32 owner' strict content' fresh' v where
  wal := h.wal
  owned name i hi := by
    obtain ⟨hname, hlt⟩ := h.owned name i hi
    exact ⟨(howner i hlt).trans hname, hlt.trans_le hfresh⟩
  ckpt i hi := by
    obtain ⟨hname, hlt⟩ := h.owned _ i hi
    rw [hcontent i hlt (by simp [hname]) (by simp [hname])]
    exact h.ckpt i hi
  state i hi := by
    obtain ⟨hname, hlt⟩ := h.owned _ i hi
    rw [hcontent i hlt (by simp [hname]) (by simp [hname])]
    exact h.state i hi
  marks := by
    have hmarks := h.marks
    rcases hi : v .marks with _ | i
    · simpa [hi] using hmarks
    · obtain ⟨hname, hlt⟩ := h.owned _ i hi
      simpa [hi, hcontent i hlt (by simp [hname]) (by simp [hname])] using hmarks

theorem Shape.Kept.inode_lt (h : sh.Kept crc32 strict files) :
    ∃ owner : Nat → FileName, (∀ v, files.Views v → sh.Fits crc32 owner strict files.content files.fresh v) ∧
      owner sh.inode = .wal ∧ sh.inode < files.fresh := by
  obtain ⟨owner, hviews⟩ := h.views
  have hwal := (hviews _ (Names.views_view files)).wal
  exact ⟨owner, hviews, (hviews _ (Names.views_view files)).owned _ _ hwal⟩

theorem Shape.Kept.sync (h : sh.Kept crc32 strict files) : sh.Kept crc32 strict files.sync := by
  obtain ⟨owner, hviews⟩ := h.views
  refine ⟨h.wal, owner, fun v hv => ?_⟩
  rw [Names.views_sync hv]
  exact hviews _ (Names.views_view files)

theorem Shape.Kept.weaken (h : sh.Kept crc32 strict files) : sh.Kept crc32 False files := by
  obtain ⟨owner, hviews⟩ := h.views
  refine ⟨h.wal, owner, fun v hv => ?_⟩
  have hfit := hviews v hv
  exact ⟨hfit.wal, hfit.owned, hfit.ckpt, fun i hi => ⟨(hfit.state i hi).1, fun ht =>
    (hfit.state i hi).2 (ht.elim False.elim .inr)⟩, hfit.marks⟩

/-- A small file is replaced. -/
theorem Shape.Kept.replace (h : sh.Kept crc32 strict files) {name : FileName} {bytes : Bytes}
    (hname : name ≠ .wal) (htmp : name = .tmp → strict)
    (hckpt : name = .ckpt → bytes.length = 8 ∧ sh.Good crc32 (Bytes.toNatLE bytes))
    (hstate : name = .state → bytes.length = 24 ∧ sh.Good crc32 (Bytes.toNatLE (bytes.take 8)))
    (hmarks : name = .marks → sh.marks (some bytes)) : sh.Kept crc32 strict (files.replace name bytes) := by
  obtain ⟨owner, hviews, -, hinode⟩ := h.inode_lt
  have hcontent : ∀ i < files.fresh, Function.update files.content files.fresh bytes i = files.content i :=
    fun i hi => Function.update_of_ne hi.ne _ _
  have hwal : Function.update files.content files.fresh bytes sh.inode = files.content sh.inode := hcontent _ hinode
  have hnew : (files.replace name bytes).content files.fresh = bytes := Function.update_self _ _ _
  refine ⟨⟨h.wal.torn, h.wal.cut_le, h.wal.cut_retired, hwal.trans h.wal.bytes, by
    simpa [Names.replace, hwal] using h.wal.short⟩, Function.update owner files.fresh name, ?_⟩
  refine Names.views_push fun v hv => ?_
  have hold : sh.Fits crc32 (Function.update owner files.fresh name) strict
      (Function.update files.content files.fresh bytes) (files.fresh + 1) v :=
    (hviews v hv).congr (Nat.le_succ _) (fun i hi => Function.update_of_ne hi.ne _ _) fun i hi _ _ => hcontent i hi
  refine ⟨hold, ?_⟩
  have happly : ∀ other, (Change.apply [(name, some files.fresh)] v) other =
      if other = name then some files.fresh else v other := by
    intro other
    simp [Change.apply, Function.update_apply]
  refine ⟨?_, fun other i hi => ?_, fun i hi => ?_, fun i hi => ?_, ?_⟩
  · rw [happly, if_neg hname.symm]
    exact hold.wal
  · rw [happly] at hi
    split at hi
    next heq =>
      cases hi
      exact ⟨by rw [heq]; exact Function.update_self _ _ _, Nat.lt_succ_self _⟩
    next => exact hold.owned other i hi
  · rw [happly] at hi
    split at hi
    next heq =>
      cases hi
      rw [hnew]
      exact hckpt heq.symm
    next => exact hold.ckpt i hi
  · rw [happly] at hi
    split at hi
    next heq =>
      cases hi
      rw [hnew]
      exact ⟨(hstate heq.symm).1, fun _ => (hstate heq.symm).2⟩
    next =>
      refine ⟨(hold.state i hi).1, fun ht => (hold.state i hi).2 ?_⟩
      rw [happly] at ht
      split at ht
      next heq => exact .inl (htmp heq.symm)
      next => exact ht
  · rw [happly]
    split
    next heq =>
      rw [Option.map_some, hnew]
      exact hmarks heq.symm
    next => exact hold.marks

/-- A file that is neither the WAL nor that of the marks is unlinked. -/
theorem Shape.Kept.remove (h : sh.Kept crc32 strict files) {name : FileName} (hname : name ≠ .wal)
    (hmarks : name ≠ .marks) :
    sh.Kept crc32 strict (files.remove name) := by
  obtain ⟨owner, hviews⟩ := h.views
  refine ⟨h.wal, owner, Names.views_push fun v hv => ⟨hviews v hv, ?_⟩⟩
  have hold := hviews v hv
  have happly : ∀ other, (Change.apply [(name, none)] v) other = if other = name then none else v other := by
    intro other
    simp [Change.apply, Function.update_apply]
  refine ⟨?_, fun other i hi => ?_, fun i hi => ?_, fun i hi => ?_, ?_⟩
  · rw [happly, if_neg hname.symm]
    exact hold.wal
  · rw [happly] at hi
    split at hi
    · cases hi
    · exact hold.owned other i hi
  · rw [happly] at hi
    split at hi
    · cases hi
    · exact hold.ckpt i hi
  · rw [happly] at hi
    split at hi
    · cases hi
    · refine ⟨(hold.state i hi).1, fun ht => (hold.state i hi).2 (ht.imp_right fun hne => ?_)⟩
      rw [happly] at hne
      split at hne
      · exact absurd rfl hne
      · exact hne
  · rw [happly, if_neg hmarks.symm]
    exact hold.marks

/-- The contents of a file that is neither the WAL nor one that recovery reads. -/
theorem Shape.Kept.setTmp (h : sh.Kept crc32 strict files) {i : Nat} (hi : files.view .tmp = some i) (bytes : Bytes) :
    sh.Kept crc32 strict (files.setContent i bytes) := by
  obtain ⟨owner, hviews, hwal, -⟩ := h.inode_lt
  have howner : owner i = .tmp := ((hviews _ (Names.views_view files)).owned _ i hi).1
  have hcontent : ∀ j, owner j ≠ .tmp → Function.update files.content i bytes j = files.content j := by
    intro j hj
    exact Function.update_of_ne (fun heq : j = i => hj (heq ▸ howner)) _ _
  have hinode : (files.setContent i bytes).content sh.inode = files.content sh.inode :=
    hcontent _ (by rw [hwal]; decide)
  refine ⟨⟨h.wal.torn, h.wal.cut_le, h.wal.cut_retired, hinode.trans h.wal.bytes, hinode ▸ h.wal.short⟩, owner,
    fun v hv => ?_⟩
  exact (hviews v hv).congr le_rfl (fun _ _ => rfl) fun j _ _ hj => hcontent j hj

theorem Shape.Kept.view_wal (h : sh.Kept crc32 strict files) : files.view .wal = some sh.inode := by
  obtain ⟨owner, hviews⟩ := h.views
  exact (hviews _ (Names.views_view files)).wal

theorem Shape.Kept.read_wal (h : sh.Kept crc32 strict files) :
    files.read .wal = some (frames crc32 (sh.history.drop sh.cut) ++ sh.tail) := by
  rw [Names.read, h.view_wal, Option.map_some, h.wal.bytes]

theorem Shape.Kept.createTmp (h : sh.Kept crc32 True files) : sh.Kept crc32 True (files.create .tmp) := by
  unfold Names.create
  split
  next i hi => exact h.setTmp hi []
  next => exact h.replace (by decide) (fun _ => trivial) (by simp) (by simp) (by simp)

theorem Shape.Kept.writeTmp (h : sh.Kept crc32 strict files) (bytes : Bytes) :
    sh.Kept crc32 strict (files.write .tmp bytes) := by
  unfold Names.write
  split
  next i hi => exact h.setTmp hi bytes
  next => exact h

/-- Records are appended, or a part of one, or a part of one is cut off; more may be gone. -/
theorem Shape.Kept.write (h : sh.Kept crc32 strict files) (past : Past decode) (tail : Bytes)
    {entries : List (Entry decode)} (hhistory : past.history = sh.history ++ entries)
    (hretired : sh.retired ≤ past.retired)
    (hmarks : ∀ bytes, sh.marks bytes → past.marks bytes) (htorn : Torn crc32 tail)
    (hshort : (frames crc32 (past.history.drop sh.cut) ++ tail).length ≤ maxFileLen) :
    ({ past with cut := sh.cut, tail, inode := sh.inode } : Shape decode).Kept crc32 strict
      (files.setContent sh.inode (frames crc32 (past.history.drop sh.cut) ++ tail)) := by
  obtain ⟨owner, hviews, hwal, -⟩ := h.inode_lt
  have hcontent : ∀ j, owner j ≠ .wal → Function.update files.content sh.inode
      (frames crc32 (past.history.drop sh.cut) ++ tail) j = files.content j := by
    intro j hj
    exact Function.update_of_ne (fun heq : j = sh.inode => hj (heq ▸ hwal)) _ _
  have hgood : ∀ offset, sh.Good crc32 offset → Signy.Good crc32 past.history past.retired sh.cut offset := by
    intro offset hoffset
    rw [hhistory]
    exact hoffset.mono hretired entries
  have hcut := h.wal.cut_le
  refine ⟨⟨htorn, ?_, h.wal.cut_retired.trans hretired, Function.update_self _ _ _, ?_⟩, owner, fun v hv => ?_⟩
  · simp only [hhistory, List.length_append]
    omega
  · rw [show (files.setContent sh.inode _).content sh.inode = _ from Function.update_self _ _ _]
    exact hshort
  · have hfit := (hviews v hv).congr le_rfl (fun _ _ => rfl) fun j _ hj _ => hcontent j hj
    exact ⟨hfit.wal, hfit.owned, fun i hi => ⟨(hfit.ckpt i hi).1, hgood _ (hfit.ckpt i hi).2⟩,
      fun i hi => ⟨(hfit.state i hi).1, fun ht => hgood _ ((hfit.state i hi).2 ht)⟩, hmarks _ hfit.marks⟩

/-- More may be gone. -/
theorem Shape.Kept.retire (h : sh.Kept crc32 strict files) {retired : Nat} (hretired : sh.retired ≤ retired)
    {marks : Option Bytes → Prop} (hmarks : ∀ bytes, sh.marks bytes → marks bytes) :
    ({ sh with retired, marks } : Shape decode).Kept crc32 strict files := by
  have hkept := h.write ⟨sh.history, retired, marks⟩ sh.tail (List.append_nil _).symm hretired hmarks h.wal.torn
    (h.wal.bytes ▸ h.wal.short)
  rwa [← h.wal.bytes, Names.setContent, Function.update_eq_self] at hkept

/-- With no intent and nothing pending an intent does not matter. -/
theorem Shape.Kept.strengthen (h : sh.Kept crc32 strict files) (hsynced : files.pending = [])
    (hstate : files.view .state = none) : sh.Kept crc32 True files := by
  obtain ⟨owner, hviews⟩ := h.views
  refine ⟨h.wal, owner, fun v hv => ?_⟩
  have hfit := hviews v hv
  have hview : files.view = files.durable := by simp [Names.view, hsynced]
  have hv' := Names.views_of_synced hsynced hv
  subst hv'
  rw [hview] at hstate
  exact ⟨hfit.wal, hfit.owned, hfit.ckpt, fun i hi => by simp [hstate] at hi, hfit.marks⟩

end Updates

/-! ## The rename -/

variable (crc32) in
/-- Each directory a crash can leave goes with a shape of its own. -/
def Safe (past : Past decode) (files : JournalFiles) : Prop :=
  ∀ v, files.Views v → ∃ (sh : Shape decode) (owner : Nat → FileName), sh.toPast = past ∧
    sh.Wal crc32 files.content ∧ sh.Fits crc32 owner False files.content files.fresh v

theorem Shape.Kept.safe {sh : Shape decode} {strict : Prop} {files : JournalFiles} (h : sh.Kept crc32 strict files) :
    Safe crc32 sh.toPast files := by
  intro v hv
  obtain ⟨owner, hviews⟩ := h.weaken.views
  exact ⟨sh, owner, rfl, h.wal, hviews v hv⟩

/-- After a crash one shape is left. -/
theorem Safe.crash {past : Past decode} {files : JournalFiles} (h : Safe crc32 past files) (mask : List Bool) :
    ∃ sh : Shape decode, sh.toPast = past ∧ sh.Kept crc32 False (files.crash mask) := by
  obtain ⟨sh, owner, hpast, hwal, hfit⟩ := h _ ⟨mask, rfl⟩
  exact ⟨sh, hpast, hwal, owner, fun v hv => by rw [Names.views_of_synced rfl hv]; exact hfit⟩

variable (crc32) in
/-- The state in which `compact_wal` renames: the intent and the checkpoint are synced, and the replacement
holds what is behind the offset. -/
structure Shape.Ready (sh : Shape decode) (n k : Nat) (files : JournalFiles) : Prop where
  kept : sh.Kept crc32 True files
  synced : files.pending = []
  tmp : files.view .tmp = some k
  replacement : files.content k = frames crc32 (sh.history.drop n)
  zero : ∃ i, files.view .ckpt = some i ∧ files.content i = Bytes.ofNatLE 8 0
  low : sh.cut ≤ n
  high : n ≤ sh.history.length
  retired : n ≤ sh.retired

/-- The shape behind the rename. -/
def Shape.behind (sh : Shape decode) (n k : Nat) : Shape decode := { sh with cut := n, tail := [], inode := k }

theorem Shape.Ready.wal {sh : Shape decode} {n k : Nat} {files : JournalFiles}
    (h : sh.Ready crc32 n k files) : (sh.behind n k).Wal crc32 files.content := by
  refine ⟨.inl rfl, h.high, h.retired, by simpa [Shape.behind] using h.replacement, ?_⟩
  have hshort := h.kept.wal.short
  have hb : frames crc32 (sh.history.drop sh.cut) =
      frames crc32 ((sh.history.drop sh.cut).take (n - sh.cut)) ++ frames crc32 (sh.history.drop n) := by
    have hlow := h.low
    rw [← frames_append, show sh.history.drop n = (sh.history.drop sh.cut).drop (n - sh.cut) by
      rw [List.drop_drop]; congr 1; omega, List.take_append_drop]
  rw [h.kept.wal.bytes, hb] at hshort
  simp only [List.length_append] at hshort
  rw [show (sh.behind n k).inode = k from rfl, h.replacement]
  omega

theorem Shape.Ready.fits {sh : Shape decode} {n k : Nat} {files : JournalFiles}
    (h : sh.Ready crc32 n k files) :
    ∃ owner, (sh.behind n k).Fits crc32 owner False files.content files.fresh
      (Change.apply [(.wal, some k), (.tmp, none)] files.view) := by
  obtain ⟨owner, hviews⟩ := h.kept.views
  have hold := hviews _ (Names.views_view files)
  obtain ⟨i, hckpt, hzero⟩ := h.zero
  have hk := hold.owned _ _ h.tmp
  have happly : ∀ name, (Change.apply [(.wal, some k), (.tmp, none)] files.view) name =
      if name = .tmp then none else if name = .wal then some k else files.view name := by
    intro name
    simp [Change.apply, Function.update_apply]
  refine ⟨Function.update owner k .wal, ?_, fun name j hj => ?_, fun j hj => ?_, fun j hj => ?_, ?_⟩
  · rw [happly]; rfl
  · rw [happly] at hj
    split at hj
    · cases hj
    · split at hj
      next heq =>
        cases hj
        exact ⟨by rw [heq, Function.update_self], hk.2⟩
      next hne _ =>
        obtain ⟨hname, hlt⟩ := hold.owned name j hj
        refine ⟨?_, hlt⟩
        rw [Function.update_of_ne (fun heq : j = k => hne (by rw [← hname, heq, hk.1])), hname]
  · rw [happly] at hj
    simp only [reduceCtorEq, if_false] at hj
    rw [hckpt] at hj
    cases hj
    rw [hzero]
    exact ⟨rfl, h.wal.good_zero⟩
  · rw [happly .tmp]
    rw [happly] at hj
    simp only [reduceCtorEq, if_false] at hj
    exact ⟨(hold.state j hj).1, by simp⟩
  · rw [happly]
    exact hold.marks

/-- Whether or not the rename reaches the disk, replay may start. -/
theorem Shape.Ready.renamed {sh : Shape decode} {n k : Nat} {files : JournalFiles}
    (h : sh.Ready crc32 n k files) :
    Safe crc32 sh.toPast (files.rename .tmp .wal) ∧
      (sh.behind n k).Kept crc32 False (files.rename .tmp .wal).sync := by
  obtain ⟨owner, hfit⟩ := h.fits
  have hview : (files.rename .tmp .wal).view = Change.apply [(.wal, some k), (.tmp, none)] files.view := by
    rw [Names.rename, Names.view_push, h.tmp]
  constructor
  · unfold Names.rename Safe
    rw [h.tmp]
    refine Names.views_push fun v hv => ⟨h.kept.safe v hv, ?_⟩
    have hv' : v = files.view := by
      rw [Names.views_of_synced h.synced hv]
      simp [Names.view, h.synced]
    subst hv'
    exact ⟨sh.behind n k, owner, rfl, h.wal, hfit⟩
  · refine ⟨h.wal, owner, fun v hv => ?_⟩
    rw [Names.views_sync hv, hview]
    exact hfit

end Signy
