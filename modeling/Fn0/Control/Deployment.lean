/-
The documents of one project's deployments, and the transactions on them.

The manifest entry names the code version that workers serve. A compile that matters puts the entry into `pre_purge`
with the new version pending, the activation task switches the entry to it (`activating`) and then declares it `active`.
The transactions are functions of the documents. Times are numbers.
-/
import Mathlib
import Fn0.Lib.OrdMap

namespace Deploy

open Std (ExtTreeMap)

inductive StaticCacheState
  | active
  | prePurge
  | activating
deriving DecidableEq

/-- The project's entry of the worker manifest. -/
structure WorkerProjectManifest where
  codeVersion : Nat := 0
  domain : String
  staticCacheState : StaticCacheState := .active
  pendingCodeVersion : Option Nat := none
deriving DecidableEq

structure CompiledBundleDoc where
  createdAt : Nat
  fn0WasmtimeVersions : List String
deriving DecidableEq

inductive WebSocketSingletonRuntimeState
  | preparing
  | active
  | terminating
deriving DecidableEq

structure WebSocketSingletonRuntimeDoc where
  singletonId : String
  codeVersion : Nat
  claimToken : String
  connectionId : String
  leaseExpiresAt : Nat
  state : WebSocketSingletonRuntimeState
deriving DecidableEq

structure Docs where
  manifestVersion : Nat := 1
  /-- `none` without a manifest and without an entry in it -/
  entry : Option WorkerProjectManifest
  bundles : ExtTreeMap Nat CompiledBundleDoc compare := ∅
  /-- the runtime that is active for the fleet -/
  activeFn0WasmtimeVersion : Option String

/-- The version that the manifest names. -/
def named (docs : Docs) : Nat := docs.entry.elim 0 (·.codeVersion)

def Compiled (docs : Docs) (codeVersion : Nat) (fn0WasmtimeVersion : String) : Prop :=
  ∃ doc, docs.bundles[codeVersion]? = some doc ∧ fn0WasmtimeVersion ∈ doc.fn0WasmtimeVersions

/-- Compiled for the active runtime. -/
def Runs (docs : Docs) (codeVersion : Nat) : Prop :=
  ∃ active, docs.activeFn0WasmtimeVersion = some active ∧ Compiled docs codeVersion active

/-! ## The callback of the compiler -/

/-- The compile is recorded. The second component says that it was not recorded before. -/
def recordCompiled (bundles : ExtTreeMap Nat CompiledBundleDoc compare) (now codeVersion : Nat)
    (fn0WasmtimeVersion : String) : ExtTreeMap Nat CompiledBundleDoc compare × Bool :=
  match bundles[codeVersion]? with
  | some doc =>
    if doc.fn0WasmtimeVersions.contains fn0WasmtimeVersion then (bundles, false)
    else (bundles.insert codeVersion
      { doc with fn0WasmtimeVersions := doc.fn0WasmtimeVersions ++ [fn0WasmtimeVersion] }, true)
  | none => (bundles.insert codeVersion ⟨now, [fn0WasmtimeVersion]⟩, true)

namespace WorkerProjectManifest

/-- The version is newer than the one served and the one pending, or it is the one served and none is pending. -/
def accepts (entry : WorkerProjectManifest) (codeVersion : Nat) : Bool :=
  (codeVersion > entry.codeVersion || codeVersion == entry.codeVersion && entry.pendingCodeVersion.isNone) &&
    entry.pendingCodeVersion.all fun pending => codeVersion > pending

def prepare (entry : WorkerProjectManifest) (codeVersion : Nat) : WorkerProjectManifest :=
  { entry with
    codeVersion := if entry.codeVersion = 0 then codeVersion else entry.codeVersion
    staticCacheState := .prePurge
    pendingCodeVersion := some codeVersion }

/-- The version is pending: its activation is to be enqueued, again if need be. -/
def awaits (entry : WorkerProjectManifest) (codeVersion : Nat) : Bool :=
  entry.pendingCodeVersion == some codeVersion && entry.staticCacheState != .active

end WorkerProjectManifest

/-- The transaction of `bundle_compiled`: the documents after it, and whether the activation is to be enqueued. -/
def bundleCompiled (docs : Docs) (now codeVersion : Nat) (fn0WasmtimeVersion : String) : Docs × Bool :=
  let recorded := recordCompiled docs.bundles now codeVersion fn0WasmtimeVersion
  let docs := { docs with bundles := recorded.1 }
  if recorded.2 && docs.activeFn0WasmtimeVersion == some fn0WasmtimeVersion then
    match docs.entry with
    | none => (docs, false)
    | some entry =>
      if entry.accepts codeVersion then
        ({ docs with entry := some (entry.prepare codeVersion), manifestVersion := docs.manifestVersion + 1 }, true)
      else (docs, entry.awaits codeVersion)
  else (docs, docs.entry.any (·.awaits codeVersion))

/-! ## The activation -/

inductive ActivationStage
  | alreadyActive
  | pending
  | activating
  | obsolete
deriving DecidableEq

def activationStage (codeVersion : Nat) (pendingCodeVersion : Option Nat) (staticCacheState : StaticCacheState)
    (targetCodeVersion : Nat) : ActivationStage :=
  if codeVersion = targetCodeVersion ∧ staticCacheState = .active then .alreadyActive
  else if pendingCodeVersion = some targetCodeVersion ∧ staticCacheState = .prePurge then .pending
  else if codeVersion = targetCodeVersion ∧ staticCacheState = .activating then .activating
  else .obsolete

def setActivating (docs : Docs) (codeVersion : Nat) : Docs :=
  match docs.entry with
  | none => docs
  | some entry =>
    if entry.pendingCodeVersion = some codeVersion ∧ entry.staticCacheState = .prePurge then
      { docs with
        entry := some { entry with codeVersion, pendingCodeVersion := none, staticCacheState := .activating }
        manifestVersion := docs.manifestVersion + 1 }
    else docs

def setActive (docs : Docs) (codeVersion : Nat) : Docs :=
  match docs.entry with
  | none => docs
  | some entry =>
    if entry.codeVersion = codeVersion ∧ entry.staticCacheState = .activating then
      { docs with
        entry := some { entry with staticCacheState := .active }
        manifestVersion := docs.manifestVersion + 1 }
    else docs

/-! ## Singleton runtime records -/

def runtimeIsStale (runtime : WebSocketSingletonRuntimeDoc) (codeVersion : Nat) (declared : List String) : Bool :=
  runtime.codeVersion != codeVersion || !declared.contains runtime.singletonId

/-- The record is deleted when its lease has expired and marked otherwise, if it is still the one that was read. -/
def retireRuntimeIfUnchanged (runtimes : ExtTreeMap String WebSocketSingletonRuntimeDoc compare)
    (expected : WebSocketSingletonRuntimeDoc) (currentTime : Nat) :
      ExtTreeMap String WebSocketSingletonRuntimeDoc compare :=
  match runtimes[expected.singletonId]? with
  | none => runtimes
  | some runtime =>
    if runtime.codeVersion ≠ expected.codeVersion ∨ runtime.claimToken ≠ expected.claimToken ∨
        runtime.connectionId ≠ expected.connectionId ∨ runtime.leaseExpiresAt ≠ expected.leaseExpiresAt then runtimes
    else if runtime.leaseExpiresAt ≤ currentTime then runtimes.erase expected.singletonId
    else runtimes.insert expected.singletonId { runtime with connectionId := "", state := .terminating }

end Deploy
