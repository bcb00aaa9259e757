/-
Optimistic transactions on documents, on any backend.

An attempt of a transaction keeps the state of `TrxState`, and commits it in one request: each document that was read
has to be unchanged, by its revision or by being missing. What the closure of the transaction does between its reads is
arbitrary, and it may ignore the errors it gets. Attempts of many transactions, plain writes and explicit transactions
interleave.
-/
import Mathlib
import Fn0.Lib.Steps
import Fn0.DocDb.TrxState

namespace DocDb

open Dodb
open Attempt (TrxState Call)

variable {σ δ : Type}

/-! ## Commit -/

inductive CommitResult
  | committed
  | conflict (condition : TransactionCondition)
  | failed
deriving DecidableEq

/-- What `commit_entries` asks for at the end of an attempt: nothing if a handle has escaped or a document does not
serialize. -/
def sent (serialize : δ → Except String Bytes) (state : TrxState δ) : Option TransactionRequest :=
  match state.takeEntries.2 with
  | .error _ => none
  | .ok entries => (Attempt.request serialize state.docs entries).toOption

def commitEntries (backend : Backend σ) (serialize : δ → Except String Bytes) (store : σ) (state : TrxState δ) :
    CommitResult × σ :=
  match sent serialize state with
  | none => (.failed, store)
  | some request =>
    if request.conditions = [] ∧ request.mutations = [] then (.committed, store)
    else
      match backend.checkedTransact store request with
      | (.ok none, store) => (.committed, store)
      | (.ok (some index), store) =>
        match request.conditions[index]? with
        | some condition => (.conflict condition, store)
        | none => (.failed, store)
      | (.error _, store) => (.failed, store)

/-! ## The system -/

def maxAttempts : Nat := 5

structure Running (δ : Type) where
  attempt : Nat := 0
  state : TrxState δ := {}
  /-- what was loaded for its `get` calls -/
  loaded : List (DocumentKey × ObservedDocument) := []
  /-- what its `get` calls have returned -/
  reads : List (DocumentKey × ObservedDocument) := []

inductive TrxResult
  | committed
  | cancelled
  | conflict
  | err
deriving DecidableEq

structure System (σ δ : Type) where
  store : σ
  running : List (Running δ) := []
  results : List TrxResult := []
  /-- the copies that explicit transactions work on -/
  working : List σ := []

inductive Action (δ : Type)
  | begin
  | load (trx : Nat) (key : DocumentKey)
  | call (trx : Nat) (call : Call δ)
  | commit (trx : Nat)
  | cancel (trx : Nat)
  | abandon (trx : Nat)
  | put (key : DocumentKey) (data : Bytes)
  | delete (key : DocumentKey)
  | transaction
  | change (transaction : Nat) (mutation : TransactionMutation)
  | publish (transaction : Nat)
  | rollback (transaction : Nat)

/-- What a call reads. -/
def readsOf : Call δ → List (Attempt.Read δ)
  | .get reads _ | .resume reads => reads
  | .create _ | .write _ _ | .delete _ | .drop _ => []

/-- What a call returns of it: all or nothing. -/
def returned (state : TrxState δ) : Call δ → List (Attempt.Read δ)
  | .get reads failure => if (state.get reads failure).2.isOk then reads else []
  | .resume reads => if (state.finalize reads).2.isOk then reads else []
  | .create _ | .write _ _ | .delete _ | .drop _ => []

def Attempt.Read.observation (read : Attempt.Read δ) : DocumentKey × ObservedDocument := (read.key, read.observed)

namespace System

section Steps

variable (backend : Backend σ) (keyOf : δ → DocumentKey) (serialize : δ → Except String Bytes)

def finish (s : System σ δ) (i : Nat) (result : TrxResult) : System σ δ :=
  { s with running := s.running.eraseIdx i, results := result :: s.results }

/-- `get_observed` of one key of a `get`. -/
def load (s : System σ δ) (i : Nat) (run : Running δ) (key : DocumentKey) : System σ δ :=
  match backend.getObserved s.store key with
  | .error _ => s
  | .ok observed => { s with running := s.running.set i { run with loaded := (key, observed) :: run.loaded } }

/-- The attempt makes a call, and a `get` goes on with what was loaded. An error of it does not end the attempt. -/
def call (s : System σ δ) (i : Nat) (run : Running δ) (call : Call δ) : Option (System σ δ) :=
  if (readsOf call).all fun read => run.loaded.contains read.observation then
    (Attempt.step keyOf run.state call).map fun state =>
      let reads := (returned run.state call).map Attempt.Read.observation ++ run.reads
      { s with running := s.running.set i { run with state, reads } }
  else none

def commit (s : System σ δ) (i : Nat) (run : Running δ) : System σ δ :=
  let result := commitEntries backend serialize s.store run.state
  let s := { s with store := result.2 }
  match result.1 with
  | .committed => s.finish i .committed
  | .conflict _ =>
    if run.attempt + 1 ≥ maxAttempts then s.finish i .conflict
    else { s with running := s.running.set i { attempt := run.attempt + 1 } }
  | .failed => s.finish i .err

def step (s : System σ δ) : Action δ → Option (System σ δ)
  | .begin => some { s with running := s.running ++ [{}] }
  | .load i key => s.running[i]?.map fun run => s.load backend i run key
  | .call i call => s.running[i]?.bind fun run => s.call keyOf i run call
  | .commit i => s.running[i]?.map fun run => s.commit backend serialize i run
  | .cancel i => if i < s.running.length then some (s.finish i .cancelled) else none
  | .abandon i => if i < s.running.length then some (s.finish i .err) else none
  | .put key data => some { s with store := (backend.put s.store key data).2 }
  | .delete key => some { s with store := (backend.delete s.store key).2 }
  | .transaction => backend.working.map fun _ => { s with working := s.working ++ [s.store] }
  | .change i mutation => backend.working.bind fun write => s.working[i]?.map fun working =>
    { s with working := s.working.set i (write working mutation) }
  | .publish i => backend.working.bind fun _ => s.working[i]?.map fun working =>
    { s with store := working, working := s.working.eraseIdx i }
  | .rollback i => if i < s.working.length then some { s with working := s.working.eraseIdx i } else none

end Steps

/-! ## What is promised -/

/-- What mutations make of a key: a document, nothing, or they leave it. -/
def written (mutations : List TransactionMutation) (key : DocumentKey) : Option (Option Bytes) :=
  (mutations.find? (·.key = key)).map fun
    | .put _ data => some data
    | .delete _ => none

/-- The content of an observation. -/
def content : ObservedDocument → Option Bytes
  | .present data _ => some data
  | .missing _ => none

section Promised

variable (backend : Backend σ) (serialize : δ → Except String Bytes)

/-- The transaction that takes the step, and how it ends its attempt if the step is its commit. -/
def committing (s : System σ δ) : Action δ → Option (Running δ × CommitResult)
  | .commit i => s.running[i]?.map fun run => (run, (commitEntries backend serialize s.store run.state).1)
  | _ => none

/-- A plain write, or the end of an explicit transaction. -/
def writesPlainly : Action δ → Bool
  | .put _ _ | .delete _ | .publish _ => true
  | _ => false

/-- A commit takes effect on documents that are what was read, and all at once. No other step of a transaction has
any. -/
structure Serial (s : System σ δ) (action : Action δ) (t : System σ δ) : Prop where
  unchanged : ∀ run, s.committing backend serialize action = some (run, .committed) → ∀ read ∈ run.reads,
    backend.content s.store read.1 = content read.2
  applied : ∀ run, s.committing backend serialize action = some (run, .committed) → ∃ request,
    sent serialize run.state = some request ∧ ∀ key,
      backend.content t.store key = (written request.mutations key).getD (backend.content s.store key)
  quiet : writesPlainly action = false → (∀ run, s.committing backend serialize action ≠ some (run, .committed)) →
    t.store = s.store

/-- The mutations that a step makes, unless it fails. -/
def writes (s : System σ δ) : Action δ → List TransactionMutation
  | .put key data => [.put key data]
  | .delete key => [.delete key]
  | .commit i => ((s.running[i]?.bind fun run => sent serialize run.state).map (·.mutations)).getD []
  | _ => []

/-- The attempts that go on beside the step. -/
def others (s : System σ δ) : Action δ → List (Running δ)
  | .commit i => s.running.eraseIdx i
  | _ => s.running

/-- The store that the step puts in the place of the other one. -/
def published (s : System σ δ) : Action δ → Option σ
  | .publish i => backend.working.bind fun _ => s.working[i]?
  | _ => none

end Promised

end System

namespace Memory

/-- An observation fits while its version grows or stays with its data. -/
def Fits (store : Store) (key : DocumentKey) : ObservedDocument → Prop
  | .present data revision => ∃ doc, store[key]? = some doc ∧ (revision : Int) ≤ doc.version ∧
    (doc.version = revision → doc.data = data)
  | .missing revision => revision = none

instance (store : Store) (key : DocumentKey) : DecidablePred (Fits store key)
  | .present data revision =>
    inferInstanceAs (Decidable (∃ doc ∈ store[key]?, (revision : Int) ≤ doc.version ∧
      (doc.version = revision → doc.data = data)))
  | .missing revision => inferInstanceAs (Decidable (revision = none))

end Memory

/--
No document is deleted that an attempt has loaded, and no version is written that does not fit. The copy that an
explicit transaction publishes has each document that an attempt has loaded, as it was loaded or with a greater version.
-/
def System.Sparing (backend : Backend Store) (serialize : δ → Except String Bytes) (s : System Store δ)
    (action : Action δ) : Prop :=
  (∀ run ∈ s.others action, ∀ read ∈ run.loaded, System.content read.2 ≠ none →
      .delete read.1 ∉ s.writes serialize action) ∧
    (∀ mutation ∈ s.writes serialize action, ∀ doc ∈ s.store[mutation.key]?, doc.version < maxI64) ∧
    ∀ store ∈ s.published backend action, ∀ run ∈ s.running, ∀ read ∈ run.loaded, Memory.Fits store read.1 read.2

instance (backend : Backend Store) (serialize : δ → Except String Bytes) (s : System Store δ) (action : Action δ) :
    Decidable (s.Sparing backend serialize action) :=
  inferInstanceAs (Decidable (_ ∧ _ ∧ _))

end DocDb
