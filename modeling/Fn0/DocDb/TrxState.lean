/-
The bookkeeping of one attempt of a transaction (doc-db/src/trx.rs): the entries it tracks in order, and an index from
keys to positions.

A document lives in a cell that its handle and its entry share: the number of the cell stands for both. Documents of all
types are one type, with the key each document names itself by and its serialization; a read brings the deserialization
of the type it asks for. Where a document was created or loaded, and which keys were read, is remembered for the
statements.
-/
import Fn0.Lib.MapTotal
import Fn0.Lib.Steps
import Fn0.DocDb.Backends

namespace DocDb.Attempt

open Dodb
open OrdMap (getElem?_insert)

structure SharedDoc (δ : Type) where
  doc : δ
  dirty : Bool := false
  deleted : Bool := false
  handleAlive : Bool := true
  /-- the key it was created or loaded under -/
  origin : DocumentKey

inductive TrackedState
  | missing
  | managed (shared : Nat) (created : Bool)
deriving DecidableEq

structure TrackedEntry where
  key : DocumentKey
  expectedRevision : Option Nat
  observed : Bool
  state : TrackedState
deriving DecidableEq

structure TrxState (δ : Type) where
  entries : List TrackedEntry := []
  index : BTreeMap DocumentKey Nat := ∅
  docs : List (SharedDoc δ) := []
  /-- the keys that were read -/
  reads : List DocumentKey := []

inductive TrxError
  | duplicateAccess (key : DocumentKey)
  | deserialize (key : DocumentKey) (err : String)
  | load (err : String)
  | escaped (key : DocumentKey)
deriving DecidableEq

/-- One key of a `get`: what the database has for it, and how its document is read. -/
structure Read (δ : Type) where
  key : DocumentKey
  observed : ObservedDocument
  decode : Bytes → Except String δ

variable {δ : Type}

namespace TrxState

/-! ## Reads -/

def registerLoaded (s : TrxState δ) (read : Read δ) : TrxState δ × Except TrxError (Option Nat) :=
  if s.index.contains read.key then (s, .error (.duplicateAccess read.key))
  else
    let s := { s with index := s.index.insert read.key s.entries.length, reads := s.reads ++ [read.key] }
    match read.observed with
    | .present data revision =>
      match read.decode data with
      | .error err => (s, .error (.deserialize read.key err))
      | .ok doc =>
        ({ s with
            docs := s.docs ++ [{ doc, origin := read.key }]
            entries := s.entries ++ [⟨read.key, some revision, true, .managed s.docs.length false⟩] },
          .ok (some s.docs.length))
    | .missing revision => ({ s with entries := s.entries ++ [⟨read.key, revision, true, .missing⟩] }, .ok none)

/-- A handle goes out of scope. -/
def dropHandle (s : TrxState δ) (handle : Option Nat) : TrxState δ :=
  match handle with
  | none => s
  | some id => { s with docs := s.docs.modify id fun d => { d with handleAlive := false } }

/-- The reads of a `get` one after the other; an error drops the handles so far. -/
def finalize (s : TrxState δ) : List (Read δ) → TrxState δ × Except TrxError (List (Option Nat))
  | [] => (s, .ok [])
  | read :: reads =>
    match s.registerLoaded read with
    | (s, .error err) => (s, .error err)
    | (s, .ok handle) =>
      match s.finalize reads with
      | (s, .error err) => (s.dropHandle handle, .error err)
      | (s, .ok handles) => (s, .ok (handle :: handles))

/-- `Trx::get`; `failure` is an error of the database. -/
def get (s : TrxState δ) (reads : List (Read δ)) (failure : Option String) :
    TrxState δ × Except TrxError (List (Option Nat)) :=
  match reads.find? fun read => s.index.contains read.key with
  | some read => (s, .error (.duplicateAccess read.key))
  | none =>
    match failure with
    | some err => (s, .error (.load err))
    | none => s.finalize reads

/-! ## Writes -/

section Create

variable (keyOf : δ → DocumentKey)

def create (s : TrxState δ) (doc : δ) : TrxState δ × Except TrxError Nat :=
  let key := keyOf doc
  let docs := s.docs ++ [{ doc, origin := key }]
  match s.index[key]? with
  | none =>
    ({ s with
        docs
        index := s.index.insert key s.entries.length
        entries := s.entries ++ [⟨key, none, false, .managed s.docs.length true⟩] }, .ok s.docs.length)
  | some idx =>
    match s.entries[idx]? with
    | some ⟨_, _, _, .missing⟩ =>
      ({ s with
          docs
          entries := s.entries.modify idx fun entry => { entry with state := .managed s.docs.length true } },
        .ok s.docs.length)
    | _ => (s, .error (.duplicateAccess key))

end Create

/-- A document is changed through its handle. -/
def write (s : TrxState δ) (id : Nat) (doc : δ) : TrxState δ :=
  { s with docs := s.docs.modify id fun d => { d with doc, dirty := true } }

/-- `DocHandle::delete`. -/
def delete (s : TrxState δ) (id : Nat) : TrxState δ :=
  { s with docs := s.docs.modify id fun d => { d with deleted := true } }

/-! ## Commit -/

/-- An entry whose document still has a handle. -/
def escapes (s : TrxState δ) (entry : TrackedEntry) : Bool :=
  match entry.state with
  | .missing => false
  | .managed shared _ => s.docs[shared]?.any (·.handleAlive)

def takeEntries (s : TrxState δ) : TrxState δ × Except TrxError (List TrackedEntry) :=
  match s.entries.find? s.escapes with
  | some entry => ({ s with entries := [] }, .error (.escaped entry.key))
  | none => ({ s with entries := [] }, .ok s.entries)

end TrxState

namespace TrackedEntry

def condition (docs : List (SharedDoc δ)) (entry : TrackedEntry) : Option TransactionCondition :=
  let isLiveCreated := match entry.state with
    | .managed shared true => docs[shared]?.all (!·.deleted)
    | _ => false
  if !entry.observed && !isLiveCreated then none
  else
    match entry.expectedRevision with
    | some expectedRevision => some (.revisionEquals entry.key expectedRevision)
    | none => some (.notExists entry.key)

def mutation (serialize : δ → Except String Bytes) (docs : List (SharedDoc δ)) (entry : TrackedEntry) :
    Except String (Option TransactionMutation) :=
  match entry.state with
  | .missing => .ok none
  | .managed shared created =>
    match docs[shared]? with
    | none => .ok none
    | some d =>
      if d.deleted then .ok (if created then none else some (.delete entry.key))
      else if created || d.dirty then (serialize d.doc).map fun data => some (.put entry.key data)
      else .ok none

end TrackedEntry

/-- The request of `commit_entries`. -/
def request (serialize : δ → Except String Bytes) (docs : List (SharedDoc δ)) (entries : List TrackedEntry) :
    Except String TransactionRequest :=
  (entries.mapM (TrackedEntry.mutation serialize docs)).map fun mutations =>
    ⟨entries.filterMap (TrackedEntry.condition docs), mutations.filterMap id⟩

/-! ## Runs -/

/-- What the closure of a transaction does, whatever it is told. -/
inductive Call (δ : Type)
  | get (reads : List (Read δ)) (failure : Option String)
  /-- the end of a `get` that ran together with other calls, after it had checked its keys -/
  | resume (reads : List (Read δ))
  | create (doc : δ)
  | write (id : Nat) (doc : δ)
  | delete (id : Nat)
  | drop (id : Nat)

/-- A handle is used while it is there. -/
def step (keyOf : δ → DocumentKey) (s : TrxState δ) : Call δ → Option (TrxState δ)
  | .get reads failure => some (s.get reads failure).1
  | .resume reads => some (s.finalize reads).1
  | .create doc => some (s.create keyOf doc).1
  | .write id doc => if s.docs[id]?.any (·.handleAlive) then some (s.write id doc) else none
  | .delete id => if s.docs[id]?.any (·.handleAlive) then some (s.delete id) else none
  | .drop id => if s.docs[id]?.any (·.handleAlive) then some (s.dropHandle (some id)) else none

/-- What the database has deserializes. -/
def Read.decodes (read : Read δ) : Bool :=
  match read.observed with
  | .present data _ => (read.decode data).isOk
  | .missing _ => true

/-- Every document that is read deserializes. -/
def decodes : Call δ → Bool
  | .get reads _ => reads.all Read.decodes
  | .resume reads => reads.all Read.decodes
  | _ => true

/-! ## The index -/

/-- The index says where the entry of each key is, and documents are under the key they came from. -/
structure Keyed (s : TrxState δ) : Prop where
  index : ∀ (key : DocumentKey) (idx : Nat),
    s.index[key]? = some idx ↔ ∃ entry, s.entries[idx]? = some entry ∧ entry.key = key
  managed : ∀ (i : Nat) (entry : TrackedEntry) (id : Nat) (created : Bool), s.entries[i]? = some entry →
    entry.state = .managed id created → ∃ d, s.docs[id]? = some d ∧ d.origin = entry.key
  tracked : ∀ id : Nat, id < s.docs.length → ∃ (i : Nat) (entry : TrackedEntry) (created : Bool),
    s.entries[i]? = some entry ∧ entry.state = .managed id created
  reads : ∀ key ∈ s.reads, ∃ entry ∈ s.entries, entry.key = key ∧ entry.observed = true

theorem keyed_start : Keyed ({} : TrxState δ) where
  index key idx := by simp
  managed _ _ _ _ h := by cases h
  tracked _ h := by cases h
  reads _ h := by cases h

theorem getElem?_concat_iff {α : Type} {l : List α} {a b : α} {i : Nat} :
    (l ++ [a])[i]? = some b ↔ l[i]? = some b ∨ i = l.length ∧ a = b := by
  rcases lt_trichotomy i l.length with hlt | rfl | hgt
  · rw [List.getElem?_append_left hlt]
    exact ⟨.inl, fun h => h.resolve_right fun heq => absurd heq.1 hlt.ne⟩
  · rw [List.getElem?_concat_length, List.getElem?_eq_none le_rfl]
    simp
  · rw [List.getElem?_eq_none (by simp; omega), List.getElem?_eq_none hgt.le]
    simp [hgt.ne']

variable {s : TrxState δ}

/-- A key is tracked once. -/
theorem Keyed.unique (h : Keyed s) {i j : Nat} {entry entry' : TrackedEntry} (hi : s.entries[i]? = some entry)
    (hj : s.entries[j]? = some entry') (hkey : entry.key = entry'.key) : i = j := by
  have hi' := (h.index entry.key i).mpr ⟨entry, hi, rfl⟩
  have hj' := (h.index entry.key j).mpr ⟨entry', hj, hkey.symm⟩
  exact Option.some.inj (hi'.symm.trans hj')

/-- What is under a handle changes, but not where it came from. -/
theorem Keyed.modify (h : Keyed s) (f : SharedDoc δ → SharedDoc δ) (hf : ∀ d, (f d).origin = d.origin) (id : Nat) :
    Keyed { s with docs := s.docs.modify id f } where
  index := h.index
  managed i entry cell created hentry hstate := by
    obtain ⟨d, hd, horigin⟩ := h.managed i entry cell created hentry hstate
    rw [List.getElem?_modify, hd]
    by_cases hid : id = cell
    · exact ⟨f d, by simp [hid], (hf d).trans horigin⟩
    · exact ⟨d, by simp [hid], horigin⟩
  tracked cell hcell := h.tracked cell (by rwa [List.length_modify] at hcell)
  reads := h.reads

/-- An entry under a key that has none. -/
theorem Keyed.push (h : Keyed s) {entry : TrackedEntry} (hnew : s.index[entry.key]? = none)
    (hstate : entry.state = .missing) : Keyed { s with
      entries := s.entries ++ [entry]
      index := s.index.insert entry.key s.entries.length } := by
  have hold (idx : Nat) (other : TrackedEntry) (hother : s.entries[idx]? = some other) : other.key ≠ entry.key := by
    intro heq
    rw [(h.index entry.key idx).mpr ⟨other, hother, heq⟩] at hnew
    cases hnew
  refine ⟨fun key idx => ?_, fun i other id created hother hmanaged => ?_, fun id hid => ?_, fun key hkey => ?_⟩
  · dsimp only
    rw [getElem?_insert]
    simp only [getElem?_concat_iff]
    split
    next heq =>
      subst heq
      constructor
      · intro hidx
        exact ⟨entry, .inr ⟨(Option.some.inj hidx).symm, rfl⟩, rfl⟩
      · rintro ⟨other, hother | ⟨rfl, -⟩, hkey⟩
        · exact absurd hkey (hold idx other hother)
        · rfl
    next hne =>
      rw [h.index]
      constructor
      · rintro ⟨other, hother, hkey⟩
        exact ⟨other, .inl hother, hkey⟩
      · rintro ⟨other, hother | ⟨-, rfl⟩, hkey⟩
        · exact ⟨other, hother, hkey⟩
        · exact absurd hkey hne
  · rcases getElem?_concat_iff.mp hother with hother | ⟨-, rfl⟩
    · exact h.managed i other id created hother hmanaged
    · rw [hstate] at hmanaged
      cases hmanaged
  · obtain ⟨i, other, created, hother, hmanaged⟩ := h.tracked id hid
    exact ⟨i, other, created, getElem?_concat_iff.mpr (.inl hother), hmanaged⟩
  · obtain ⟨other, hother, hread⟩ := h.reads key hkey
    exact ⟨other, List.mem_append_left _ hother, hread⟩

/-- An entry that was missing gets a document under its own key. -/
theorem Keyed.fill (h : Keyed s) {idx : Nat} {entry : TrackedEntry} (hentry : s.entries[idx]? = some entry)
    (hmissing : entry.state = .missing) {d : SharedDoc δ} (horigin : d.origin = entry.key) (created : Bool) :
    Keyed { s with
      docs := s.docs ++ [d]
      entries := s.entries.modify idx fun entry => { entry with state := .managed s.docs.length created } } := by
  have hat (i : Nat) (other : TrackedEntry) :
      (s.entries.modify idx fun entry => { entry with state := .managed s.docs.length created })[i]? = some other ↔
        i = idx ∧ other = { entry with state := .managed s.docs.length created } ∨ i ≠ idx ∧
          s.entries[i]? = some other := by
    rw [List.getElem?_modify]
    by_cases hi : idx = i
    · subst hi
      simp [hentry, eq_comm]
    · simp [hi, Ne.symm hi]
  refine ⟨fun key i => ?_, fun i other id created' hother hmanaged => ?_, fun id hid => ?_, fun key hkey => ?_⟩
  · rw [h.index]
    dsimp only
    simp only [hat]
    by_cases hi : i = idx
    · subst hi
      simp [hentry]
    · simp [hi]
  · dsimp only at hother ⊢
    rcases (hat i other).mp hother with ⟨-, rfl⟩ | ⟨-, hother⟩
    · cases hmanaged
      exact ⟨d, List.getElem?_concat_length, horigin⟩
    · obtain ⟨d', hd', horigin'⟩ := h.managed i other id created' hother hmanaged
      exact ⟨d', getElem?_concat_iff.mpr (.inl hd'), horigin'⟩
  · dsimp only at hid ⊢
    rw [List.length_append, List.length_singleton] at hid
    by_cases hlast : id = s.docs.length
    · exact ⟨idx, _, created, (hat idx _).mpr (.inl ⟨rfl, rfl⟩), by rw [hlast]⟩
    · obtain ⟨i, other, created', hother, hmanaged⟩ := h.tracked id (by omega)
      refine ⟨i, other, created', (hat i other).mpr (.inr ⟨?_, hother⟩), hmanaged⟩
      rintro rfl
      rw [hentry] at hother
      cases hother
      rw [hmissing] at hmanaged
      cases hmanaged
  · obtain ⟨other, hother, hread⟩ := h.reads key hkey
    obtain ⟨i, hi⟩ := List.getElem?_of_mem hother
    by_cases hidx : i = idx
    · subst hidx
      rw [hentry] at hi
      cases hi
      exact ⟨_, List.mem_of_getElem? ((hat i _).mpr (.inl ⟨rfl, rfl⟩)), hread⟩
    · exact ⟨other, List.mem_of_getElem? ((hat i other).mpr (.inr ⟨hidx, hi⟩)), hread⟩

theorem modify_concat {α : Type} (l : List α) (a : α) (f : α → α) : (l ++ [a]).modify l.length f = l ++ [f a] := by
  induction l with
  | nil => rfl
  | cons b l ih => exact congrArg (b :: ·) ih

/-- An entry with a document, under a key that has none. -/
theorem Keyed.pushDoc (h : Keyed s) {key : DocumentKey} (hnew : s.index[key]? = none) (revision : Option Nat)
    (observed created : Bool) {d : SharedDoc δ} (horigin : d.origin = key) : Keyed { s with
      docs := s.docs ++ [d]
      index := s.index.insert key s.entries.length
      entries := s.entries ++ [⟨key, revision, observed, .managed s.docs.length created⟩] } := by
  have hpush := h.push (show s.index[(TrackedEntry.mk key revision observed .missing).key]? = none from hnew) rfl
  have hfill := hpush.fill List.getElem?_concat_length rfl horigin created
  dsimp only at hfill
  rwa [modify_concat] at hfill

theorem Keyed.read (h : Keyed s) {entry : TrackedEntry} (hentry : entry ∈ s.entries)
    (hobserved : entry.observed = true) :
    Keyed { s with reads := s.reads ++ [entry.key] } where
  index := h.index
  managed := h.managed
  tracked := h.tracked
  reads key hkey := by
    rcases List.mem_append.mp hkey with hkey | hkey
    · exact h.reads key hkey
    · exact ⟨entry, hentry, (List.mem_singleton.mp hkey).symm, hobserved⟩

/-! ## The calls keep it -/

theorem Keyed.dropHandle (h : Keyed s) (handle : Option Nat) : Keyed (s.dropHandle handle) := by
  cases handle with
  | none => exact h
  | some id => exact h.modify (fun d => { d with handleAlive := false }) (fun _ => rfl) id

theorem Keyed.registerLoaded (h : Keyed s) {read : Read δ} (hdecodes : read.decodes = true) :
    Keyed (s.registerLoaded read).1 := by
  rw [TrxState.registerLoaded]
  split
  next => exact h
  next hnew =>
    have hnone : s.index[read.key]? = none := by
      rwa [Std.ExtTreeMap.contains_eq_isSome_getElem?, Option.not_isSome_iff_eq_none] at hnew
    rw [Read.decodes] at hdecodes
    split
    next data revision hobserved =>
      split
      next err hfailed =>
        rw [hobserved] at hdecodes
        dsimp only at hdecodes
        rw [hfailed] at hdecodes
        cases hdecodes
      next doc _ =>
        have hpush := h.pushDoc (d := ⟨doc, false, false, true, read.key⟩) hnone (some revision) true false rfl
        exact hpush.read (List.mem_append_right _ (List.mem_singleton_self _)) rfl
    next revision _ =>
      have hpush := h.push (show s.index[(TrackedEntry.mk read.key revision true .missing).key]? = none from hnone) rfl
      exact hpush.read (List.mem_append_right _ (List.mem_singleton_self _)) rfl

theorem Keyed.finalize {reads : List (Read δ)} (h : Keyed s) (hdecodes : reads.all Read.decodes = true) :
    Keyed (s.finalize reads).1 := by
  induction reads generalizing s with
  | nil => exact h
  | cons read reads ih =>
    rw [List.all_cons, Bool.and_eq_true] at hdecodes
    have hread := h.registerLoaded hdecodes.1
    rw [TrxState.finalize]
    split
    next s' err heq =>
      rw [heq] at hread
      exact hread
    next s' handle heq =>
      rw [heq] at hread
      have hrest := ih hread hdecodes.2
      split
      next s'' err heq' =>
        rw [heq'] at hrest
        exact hrest.dropHandle handle
      next s'' handles heq' =>
        rw [heq'] at hrest
        exact hrest

theorem Keyed.get {reads : List (Read δ)} (h : Keyed s) (failure : Option String)
    (hdecodes : reads.all Read.decodes = true) : Keyed (s.get reads failure).1 := by
  rw [TrxState.get.eq_def]
  split
  next => exact h
  next =>
    split
    next => exact h
    next => exact h.finalize hdecodes

theorem Keyed.create (h : Keyed s) (keyOf : δ → DocumentKey) (doc : δ) : Keyed (s.create keyOf doc).1 := by
  rw [TrxState.create]
  split
  next hnone => exact h.pushDoc hnone none false true rfl
  next idx hidx =>
    obtain ⟨entry, hentry, hkey⟩ := (h.index _ idx).mp hidx
    split
    next key revision observed hmissing =>
      rw [hmissing] at hentry
      cases hentry
      exact h.fill hmissing rfl hkey.symm true
    next => exact h

theorem Keyed.step {keyOf : δ → DocumentKey} {t : TrxState δ} {call : Call δ} (h : Keyed s)
    (hdecodes : decodes call = true) (hstep : step keyOf s call = some t) : Keyed t := by
  cases call with
  | get reads failure =>
    cases hstep
    exact h.get failure hdecodes
  | resume reads =>
    cases hstep
    exact h.finalize hdecodes
  | create doc =>
    cases hstep
    exact h.create keyOf doc
  | write id doc =>
    cases (Option.ite_none_right_eq_some.mp hstep).2
    exact h.modify (fun d => { d with doc, dirty := true }) (fun _ => rfl) id
  | delete id =>
    cases (Option.ite_none_right_eq_some.mp hstep).2
    exact h.modify (fun d => { d with deleted := true }) (fun _ => rfl) id
  | drop id =>
    cases (Option.ite_none_right_eq_some.mp hstep).2
    exact h.dropHandle (some id)

/-! ## What is sent -/

theorem nodup_map_of_getElem? {α β : Type} {l : List α} {f : α → β}
    (h : ∀ (i j : Nat) (a b : α), l[i]? = some a → l[j]? = some b → f a = f b → i = j) : (l.map f).Nodup := by
  rw [List.Nodup, List.pairwise_map, List.pairwise_iff_getElem]
  intro i j hi hj hlt heq
  exact absurd (h i j _ _ (List.getElem?_eq_getElem hi) (List.getElem?_eq_getElem hj) heq) hlt.ne

theorem Keyed.entries_nodup (h : Keyed s) : (s.entries.map (·.key)).Nodup :=
  nodup_map_of_getElem? fun _ _ _ _ => h.unique

theorem Keyed.docs_nodup (h : Keyed s) : (s.docs.map (·.origin)).Nodup := by
  have hentry (id : Nat) (d : SharedDoc δ) (hd : s.docs[id]? = some d) :
    ∃ (i : Nat) (entry : TrackedEntry) (created : Bool),
      s.entries[i]? = some entry ∧ entry.state = .managed id created ∧ entry.key = d.origin := by
    obtain ⟨hlt, -⟩ := List.getElem?_eq_some_iff.mp hd
    obtain ⟨i, entry, created, hi, hstate⟩ := h.tracked id hlt
    obtain ⟨d', hd', horigin⟩ := h.managed i entry id created hi hstate
    rw [hd] at hd'
    cases hd'
    exact ⟨i, entry, created, hi, hstate, horigin.symm⟩
  refine nodup_map_of_getElem? fun id id' d d' hd hd' heq => ?_
  obtain ⟨i, entry, created, hi, hstate, hkey⟩ := hentry id d hd
  obtain ⟨j, entry', created', hj, hstate', hkey'⟩ := hentry id' d' hd'
  have hij := h.unique hi hj (hkey.trans (heq.trans hkey'.symm))
  subst hij
  rw [hi] at hj
  cases hj
  rw [hstate] at hstate'
  cases hstate'
  rfl

/-- What a mutation is made from. -/
def Sends (serialize : δ → Except String Bytes) (d : SharedDoc δ) (m : TransactionMutation) : Prop :=
  m = .delete d.origin ∧ d.deleted = true ∨
    ∃ data, m = .put d.origin data ∧ d.deleted = false ∧ serialize d.doc = .ok data

theorem Keyed.mutation {serialize : δ → Except String Bytes} {entry : TrackedEntry} {m : TransactionMutation}
    (h : Keyed s) (hentry : entry ∈ s.entries) (hm : entry.mutation serialize s.docs = .ok (some m)) :
    ∃ d ∈ s.docs, Sends serialize d m := by
  obtain ⟨i, hi⟩ := List.getElem?_of_mem hentry
  rw [TrackedEntry.mutation] at hm
  split at hm
  next => cases hm
  next id created hstate =>
    obtain ⟨d, hd, horigin⟩ := h.managed i entry id created hi hstate
    rw [hd] at hm
    refine ⟨d, List.mem_of_getElem? hd, ?_⟩
    dsimp only at hm
    rw [← horigin] at hm
    split at hm
    next hdeleted =>
      split at hm
      next => cases hm
      next =>
        cases hm
        exact .inl ⟨rfl, hdeleted⟩
    next hdeleted =>
      split at hm
      next =>
        cases hdata : serialize d.doc with
        | error err =>
          rw [hdata] at hm
          cases hm
        | ok data =>
          rw [hdata] at hm
          cases hm
          exact .inr ⟨data, rfl, Bool.eq_false_of_not_eq_true hdeleted, hdata⟩
      next => cases hm

theorem condition_of_observed (docs : List (SharedDoc δ)) {entry : TrackedEntry} (hobserved : entry.observed = true) :
    ∃ c, entry.condition docs = some c ∧ c.key = entry.key := by
  rw [TrackedEntry.condition, hobserved]
  cases entry.expectedRevision with
  | none => exact ⟨_, rfl, rfl⟩
  | some revision => exact ⟨_, rfl, rfl⟩

theorem mem_of_mapM {ε α β : Type} {f : α → Except ε β} {as : List α} {bs : List β} (h : as.mapM f = .ok bs) {b : β}
    (hb : b ∈ bs) : ∃ a ∈ as, f a = .ok b := by
  induction as generalizing bs with
  | nil =>
    cases h
    cases hb
  | cons a as ih =>
    rw [List.mapM_cons] at h
    cases ha : f a with
    | error err =>
      rw [ha] at h
      cases h
    | ok b' =>
      cases has : as.mapM f with
      | error err =>
        rw [ha, has] at h
        cases h
      | ok bs' =>
        rw [ha, has] at h
        cases h
        rcases List.mem_cons.mp hb with rfl | hb
        · exact ⟨a, List.mem_cons_self, ha⟩
        · obtain ⟨a', ha', hfa⟩ := ih has hb
          exact ⟨a', List.mem_cons_of_mem _ ha', hfa⟩

/-- The request names every key that was read, and what it writes under a key is that of the key's document. -/
theorem Keyed.request {serialize : δ → Except String Bytes} {request : TransactionRequest} (h : Keyed s)
    (hrequest : Attempt.request serialize s.docs s.entries = .ok request) :
    (∀ key ∈ s.reads, ∃ c ∈ request.conditions, c.key = key) ∧
      ∀ m ∈ request.mutations, ∃ d ∈ s.docs, Sends serialize d m := by
  rw [Attempt.request] at hrequest
  cases hmutations : s.entries.mapM (TrackedEntry.mutation serialize s.docs) with
  | error err =>
    rw [hmutations] at hrequest
    cases hrequest
  | ok mutations =>
    rw [hmutations] at hrequest
    cases hrequest
    constructor
    · intro key hkey
      obtain ⟨entry, hentry, rfl, hobserved⟩ := h.reads key hkey
      obtain ⟨c, hc, hckey⟩ := condition_of_observed s.docs hobserved
      exact ⟨c, List.mem_filterMap.mpr ⟨entry, hentry, hc⟩, hckey⟩
    · intro m hm
      obtain ⟨m', hm', hid⟩ := List.mem_filterMap.mp hm
      cases hid
      obtain ⟨entry, hentry, hsome⟩ := mem_of_mapM hmutations hm'
      exact h.mutation hentry hsome

theorem takeEntries_ok {entries : List TrackedEntry} (h : s.takeEntries.2 = .ok entries) : entries = s.entries := by
  rw [TrxState.takeEntries] at h
  split at h
  next => cases h
  next =>
    cases h
    rfl

section Run

variable (keyOf : δ → DocumentKey) (serialize : δ → Except String Bytes)

/-- **Documents are written under their own keys.** Whatever an attempt reads, creates, changes, deletes and drops, with
every error ignored, if all stored documents it reads deserialize: the index maps each of its keys to that key's own
entry, no key has two entries or two documents, and what is sent has a condition for each key that was read and writes
under each key only what the document created or loaded under that key has become. -/
theorem written_under_own_key (h : Steps.Reach (step keyOf) (fun _ call => decodes call = true) {} s) :
    (∀ (key : DocumentKey) (idx : Nat), s.index[key]? = some idx → ∃ entry, s.entries[idx]? = some entry ∧
      entry.key = key) ∧
      (s.entries.map (·.key)).Nodup ∧ (s.docs.map (·.origin)).Nodup ∧
      ∀ entries request, s.takeEntries.2 = .ok entries → Attempt.request serialize s.docs entries = .ok request →
        (∀ key ∈ s.reads, ∃ c ∈ request.conditions, c.key = key) ∧
          ∀ m ∈ request.mutations, ∃ d ∈ s.docs, Sends serialize d m := by
  have hkeyed := h.invariant keyed_start fun _ _ _ hkeyed hdecodes hstep => hkeyed.step hdecodes hstep
  refine ⟨fun key idx => (hkeyed.index key idx).mp, hkeyed.entries_nodup, hkeyed.docs_nodup, ?_⟩
  intro entries request htaken hrequest
  cases takeEntries_ok htaken
  exact hkeyed.request hrequest

end Run

/-! ## A document that does not deserialize -/

section Runs

/-- A document is its key and its bytes. -/
abbrev Plain := DocumentKey × Bytes

def alice : DocumentKey := ⟨[97], []⟩

def bob : DocumentKey := ⟨[98], []⟩

/-- Alice is read and changed, Bob is missing and created, then Alice is asked for again. -/
def visits : List (Call Plain) :=
  [.get [⟨alice, .present [1] 7, fun data => .ok (alice, data)⟩, ⟨bob, .missing none, fun data => .ok (bob, data)⟩]
    none,
    .write 0 (alice, [2]), .create (bob, [3]), .get [⟨alice, .present [1] 7, fun data => .ok (alice, data)⟩] none,
    .drop 0, .drop 1]

/-- Alice's document does not deserialize, Bob is missing, and Alice is created. -/
def mixedUp : List (Call Plain) :=
  [.get [⟨alice, .present [1] 7, fun _ => .error "missing field"⟩] none,
    .get [⟨bob, .missing none, fun data => .ok (bob, data)⟩] none, .create (alice, [3]), .drop 0]

/-- What is sent at the end of an attempt. -/
def sent (s : TrxState Plain) : Option TransactionRequest :=
  match s.takeEntries.2 with
  | .error _ => none
  | .ok entries => (request (fun doc => .ok doc.2) s.docs entries).toOption

theorem written_under_own_key_visits : ∃ s : TrxState Plain,
    Steps.Reach (step Prod.fst) (fun _ call => decodes call = true) {} s ∧
      sent s = some ⟨[.revisionEquals alice 7, .notExists bob], [.put alice [2], .put bob [3]]⟩ ∧
      (s.entries.map (·.key)).Nodup := by
  have hrun : ∃ s : TrxState Plain, Steps.Reach (step Prod.fst) (fun _ call => decodes call = true) {} s ∧
      (sent s == some ⟨[.revisionEquals alice 7, .notExists bob], [.put alice [2], .put bob [3]]⟩) = true :=
    Steps.exists_reach visits (by decide +kernel)
  obtain ⟨s, hs, hsent⟩ := hrun
  exact ⟨s, hs, beq_iff_eq.mp hsent, (written_under_own_key Prod.fst (fun doc => .ok doc.2) hs).2.1⟩

/-- **A document under another's key.** The index keeps the place of a document that did not deserialize, and the next
key takes that place: Alice's document is put under Bob's key, and nothing is said of Alice's. -/
theorem written_under_other_key : ∃ s : TrxState Plain, Steps.Reach (step Prod.fst) (fun _ _ => True) {} s ∧
    s.reads = [alice, bob] ∧ s.index[alice]? = some 0 ∧ s.entries.map (·.key) = [bob] ∧
      s.docs.map (·.origin) = [alice] ∧
      sent s = some ⟨[.notExists bob], [.put bob [3]]⟩ := by
  have hrun : ∃ s : TrxState Plain, Steps.Reach (step Prod.fst) (fun _ _ => True) {} s ∧
      (s.reads == [alice, bob] && s.index[alice]? == some 0 && s.entries.map (·.key) == [bob] &&
        s.docs.map (·.origin) == [alice] && sent s == some ⟨[.notExists bob], [.put bob [3]]⟩) = true :=
    Steps.exists_reach mixedUp (by decide +kernel)
  obtain ⟨s, hs, hsent⟩ := hrun
  simp only [Bool.and_eq_true, beq_iff_eq, and_assoc] at hsent
  exact ⟨s, hs, hsent⟩

end Runs

end DocDb.Attempt
