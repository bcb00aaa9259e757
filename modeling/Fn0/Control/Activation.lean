/-
Activation of one project's deployments under redelivery.

A callback of the compiler is retried until an attempt of it is answered, and a message of the queue is delivered any
number of times, also after a delivery has returned. Attempts and tasks take one step at a time in any order and fail at
any step: a step that has taken effect may still be one whose answer was lost. The singleton runtime records and
configurations are written by others at any time.
-/
import Mathlib
import Fn0.Lib.Steps
import Fn0.Control.Deployment

namespace Deploy

open Std (ExtTreeMap)

structure Callback where
  codeVersion : Nat
  fn0WasmtimeVersion : String
  answered : Bool := false

/-- A callback that is handled: its transaction has committed. -/
structure Attempt where
  callback : Nat
  shouldEnqueue : Bool

structure Message where
  codeVersion : Nat
  /-- a delivery has returned `Ok` -/
  acked : Bool := false

/-- What an activation task does next. The zone to purge was read at the start. -/
inductive Point
  | start
  | prePurge (userZone : Option String)
  | setActivating (userZone : Option String)
  | reread (userZone : Option String)
  | postPurge (userZone : Option String)
  | setActive
  | enqueuePrune
  | readConfig
  | readRuntimes (declared : List String)
  | retire (runtimeRecords : List WebSocketSingletonRuntimeDoc) (declared : List String)
  | enqueueReconcile (declared : List String)

structure Task where
  message : Nat
  codeVersion : Nat
  point : Point := .start

structure System where
  docs : Docs
  configs : ExtTreeMap Nat (List String) compare := ∅
  runtimes : ExtTreeMap String WebSocketSingletonRuntimeDoc compare := ∅
  callbacks : List Callback := []
  attempts : List Attempt := []
  messages : List Message := []
  tasks : List Task := []
  /-- the versions that the manifest has named -/
  switched : List Nat
  /-- the versions that the manifest had named when some purge completed -/
  purged : List Nat := []

inductive Action
  | arrive (codeVersion : Nat) (fn0WasmtimeVersion : String)
  | attempt (callback now : Nat)
  | enqueue (attempt : Nat)
  | answer (attempt : Nat)
  | abandon (attempt : Nat)
  | deliver (message : Nat)
  | advance (task now : Nat)
  | fail (task : Nat)
  | writeRuntime (singletonId : String) (runtime : Option WebSocketSingletonRuntimeDoc)
  | writeConfig (codeVersion : Nat) (declarations : List String)

def runtimeQueryLimit : Nat := 1000

namespace System

def write (s : System) (docs : Docs) : System := { s with docs, switched := named docs :: s.switched }

/-- Without a zone there is nothing to purge. -/
def purgeUserZone (s : System) : Option String → System
  | none => s
  | some _ => { s with purged := s.switched ++ s.purged }

/-- What the query of the runtime records returns. -/
def runtimeRecords (s : System) : List WebSocketSingletonRuntimeDoc :=
  (s.runtimes.toList.map Prod.snd).take runtimeQueryLimit

/-- One step of the task of a version, and what it does next: `none` when it has returned. -/
def perform (s : System) (now codeVersion : Nat) : Point → System × Option Point
  | .start =>
    match s.docs.entry with
    | none => (s, none)
    | some entry =>
      let userZone := if entry.domain = "" then none else some entry.domain
      match activationStage entry.codeVersion entry.pendingCodeVersion entry.staticCacheState codeVersion with
      | .obsolete => (s, none)
      | .alreadyActive => (s, some .enqueuePrune)
      | .pending | .activating =>
        if entry.staticCacheState = .prePurge then (s, some (.prePurge userZone)) else (s, some (.reread userZone))
  | .prePurge userZone => (s.purgeUserZone userZone, some (.setActivating userZone))
  | .setActivating userZone => (s.write (Deploy.setActivating s.docs codeVersion), some (.reread userZone))
  | .reread userZone =>
    match s.docs.entry with
    | none => (s, none)
    | some entry =>
      if entry.codeVersion ≠ codeVersion ∨ entry.staticCacheState ≠ .activating then (s, none)
      else (s, some (.postPurge userZone))
  | .postPurge userZone => (s.purgeUserZone userZone, some .setActive)
  | .setActive => (s.write (Deploy.setActive s.docs codeVersion), some .enqueuePrune)
  | .enqueuePrune => (s, some .readConfig)
  | .readConfig => (s, some (.readRuntimes (s.configs[codeVersion]?.getD [])))
  | .readRuntimes declared => (s, some (.retire s.runtimeRecords declared))
  | .retire [] declared => (s, some (.enqueueReconcile declared))
  | .retire (runtime :: rest) declared =>
    if runtimeIsStale runtime codeVersion declared then
      ({ s with runtimes := retireRuntimeIfUnchanged s.runtimes runtime now }, some (.retire rest declared))
    else (s, some (.retire rest declared))
  | .enqueueReconcile [] => (s, none)
  | .enqueueReconcile (_ :: rest) => (s, some (.enqueueReconcile rest))

/-- The task goes on, or its message is done. -/
def resume (s : System) (k : Nat) (task : Task) : Option Point → System
  | some point => { s with tasks := s.tasks.set k { task with point } }
  | none =>
    { s with
      tasks := s.tasks.eraseIdx k
      messages := s.messages.modify task.message fun message => { message with acked := true } }

def step (s : System) : Action → Option System
  | .arrive codeVersion fn0WasmtimeVersion =>
    some { s with callbacks := s.callbacks ++ [⟨codeVersion, fn0WasmtimeVersion, false⟩] }
  | .attempt i now =>
    match s.callbacks[i]? with
    | none => none
    | some callback =>
      let result := bundleCompiled s.docs now callback.codeVersion callback.fn0WasmtimeVersion
      let s := s.write result.1
      some { s with attempts := s.attempts ++ [⟨i, result.2⟩] }
  | .enqueue j =>
    match s.attempts[j]? with
    | some ⟨i, true⟩ =>
      match s.callbacks[i]? with
      | none => none
      | some callback =>
        some { s with
          messages := s.messages ++ [⟨callback.codeVersion, false⟩]
          attempts := s.attempts.set j ⟨i, false⟩ }
    | _ => none
  | .answer j =>
    match s.attempts[j]? with
    | some ⟨i, false⟩ =>
      some { s with
        callbacks := s.callbacks.modify i fun callback => { callback with answered := true }
        attempts := s.attempts.eraseIdx j }
    | _ => none
  | .abandon j => some { s with attempts := s.attempts.eraseIdx j }
  | .deliver m =>
    match s.messages[m]? with
    | none => none
    | some message => some { s with tasks := s.tasks ++ [⟨m, message.codeVersion, .start⟩] }
  | .advance k now =>
    match s.tasks[k]? with
    | none => none
    | some task =>
      let result := s.perform now task.codeVersion task.point
      some (result.1.resume k task result.2)
  | .fail k => some { s with tasks := s.tasks.eraseIdx k }
  | .writeRuntime singletonId runtime => some { s with runtimes := s.runtimes.alter singletonId fun _ => runtime }
  | .writeConfig codeVersion declarations => some { s with configs := s.configs.insert codeVersion declarations }

/-- The project has a domain and nothing is compiled yet. -/
def start (domain : String) (activeFn0WasmtimeVersion : Option String) : System where
  docs := { entry := some { domain }, activeFn0WasmtimeVersion }
  switched := [0]

/-- A task that reads the runtime records finds none of a version greater than its own. -/
def Calm (s : System) : Action → Prop
  | .advance k _ => ∀ task ∈ s.tasks[k]?,
    match task.point with
    | .readRuntimes _ => ∀ runtime ∈ s.runtimeRecords, runtime.codeVersion ≤ task.codeVersion
    | _ => True
  | _ => True

instance (s : System) (action : Action) : Decidable (s.Calm action) := by
  unfold Calm
  split
  · have (task : Task) : Decidable (match task.point with
        | .readRuntimes _ => ∀ runtime ∈ s.runtimeRecords, runtime.codeVersion ≤ task.codeVersion
        | _ => True) := by
      split <;> infer_instance
    infer_instance
  · infer_instance

/-! ## What is promised -/

/-- The task that takes the step. -/
def actor (s : System) : Action → Option Task
  | .advance k _ => s.tasks[k]?
  | _ => none

structure Safe (s : System) (action : Action) (t : System) : Prop where
  version : named s.docs ≤ named t.docs
  purged : ∀ entry, t.docs.entry = some entry → entry.staticCacheState = .active → t.docs.entry ≠ s.docs.entry →
    entry.codeVersion ∈ s.purged
  entry : ∀ task, s.actor action = some task → ∀ entry, s.docs.entry = some entry →
    (task.codeVersion < entry.codeVersion ∨ ∃ pending, entry.pendingCodeVersion = some pending ∧
      task.codeVersion < pending) →
    t.docs.entry = some entry
  runtimes : ∀ task, s.actor action = some task → ∀ (singletonId : String) runtime,
    s.runtimes[singletonId]? = some runtime →
    task.codeVersion < runtime.codeVersion → t.runtimes[singletonId]? = some runtime

/-- Each callback was answered and each message was handled. -/
def Settled (s : System) : Prop :=
  (∀ callback ∈ s.callbacks, callback.answered = true) ∧ ∀ message ∈ s.messages, message.acked = true

instance (s : System) : Decidable s.Settled := inferInstanceAs (Decidable (_ ∧ _))

/-- When all is settled the greatest version compiled for the active runtime is active. -/
def Live (s : System) : Prop :=
  s.Settled → ∀ codeVersion, Runs s.docs codeVersion → (∀ other, Runs s.docs other → other ≤ codeVersion) →
    ∃ entry, s.docs.entry = some entry ∧ entry.codeVersion = codeVersion ∧ entry.staticCacheState = .active

end System

end Deploy
