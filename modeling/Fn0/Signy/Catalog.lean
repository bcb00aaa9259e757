/-
The catalog of the parts in the object store: a chain of commits, each created under the next generation on two
replicas, with snapshots from time to time.

The functions of the storage handle are programs of calls. A call goes to the object store, which may fail it, or to
what the handle keeps in memory: the cached state and the writer epoch.
-/
import Mathlib
import Fn0.Lib.Calls
import Fn0.Lib.OrdMap
import Fn0.Signy.ObjectStore

namespace Signy

open Std (ExtTreeMap ExtTreeSet)

/-! ## States, commits and snapshots -/

structure Manifest where
  generation : Nat := 0
  writerEpoch : Nat := 0
  parts : List PartName := []
deriving DecidableEq

structure CatalogState where
  generation : Nat := 0
  writerEpoch : Nat := 0
  lastDigest : String := ""
  lastTransactionId : String := ""
  manifest : Manifest := {}
  traceManifest : Manifest := {}
  metricManifest : Manifest := {}
deriving DecidableEq

structure CatalogMutation where
  transactionId : String := ""
  writerEpoch : Nat := 0
  claimWriter : Bool := false
  logAdded : List PartName := []
  logRemoved : List String := []
  traceAdded : List PartName := []
  traceRemoved : List String := []
  metricAdded : List PartName := []
  metricRemoved : List String := []
deriving DecidableEq

structure CatalogCommit where
  generation : Nat
  parentGeneration : Nat
  parentDigest : String
  mutation : CatalogMutation
  digest : String
deriving DecidableEq

structure CatalogSnapshot where
  generation : Nat
  throughDigest : String
  state : CatalogState
  digest : String
deriving DecidableEq

inductive CatalogKind
  | commits
  | snapshots
deriving DecidableEq

inductive Replica
  | a
  | b
deriving DecidableEq

inductive Signal
  | logs
  | traces
  | metrics
deriving DecidableEq

inductive CatalogError
  | readFailed
  | createFailed
  | listFailed
  | deleteFailed
  | uploadFailed
  | invalidObject (kind : CatalogKind) (replica : Replica) (generation : Nat)
  | commitDigest (generation : Nat)
  | snapshotGeneration (generation contained : Nat)
  | snapshotThroughDigest (generation : Nat)
  | snapshotDigest (generation : Nat)
  | containsGeneration (kind : CatalogKind) (replica : Replica) (generation : Nat)
  | divergentReplicas (kind : CatalogKind) (generation : Nat)
  | bothInvalid (kind : CatalogKind) (generation : Nat)
  | invalidGeneration (kind : CatalogKind) (generation : Nat)
  | missing (kind : CatalogKind) (generation : Nat)
  | partCollision (signal : Signal) (id : String)
  | invalidPart (signal : Signal)
  | parentGeneration (commit points current : Nat)
  | parentDigest (commit : Nat)
  | generationOverflow
  | generationAdvance (current expected found : Nat)
  | epochOverflow
  | epochAdvance (current expected found : Nat)
  | epochWithoutClaim (commit : Nat)
  | legacyManifest (signal : Signal)
  | generationGap (after found : Nat)
  | disappeared (kind : CatalogKind) (replica : Replica) (generation : Nat)
  | replicaDiffers (kind : CatalogKind) (replica : Replica) (generation : Nat)
  | fenced (held observed : Nat)
  | mutationEpoch (mutation state : Nat)
  | retryLimit
  | inputsChanged (expected found : Nat)
deriving DecidableEq

/-- SHA-256 in hexadecimal over the JSON of a record. -/
structure Sha where
  commit : CatalogCommit → String
  snapshot : CatalogSnapshot → String

/-- A digest that tells the generations of a chain apart. -/
def generationSha : Sha := ⟨fun commit => toString commit.generation, fun snapshot => toString snapshot.generation⟩

def refuse (condition : Prop) [Decidable condition] (error : CatalogError) : Except CatalogError Unit :=
  if condition then .error error else .ok ()

def sealCatalogCommit (sha : Sha) (commit : CatalogCommit) : CatalogCommit :=
  { commit with digest := sha.commit { commit with digest := "" } }

def verifyCatalogCommit (sha : Sha) (commit : CatalogCommit) : Except CatalogError Unit :=
  refuse ((sealCatalogCommit sha commit).digest ≠ commit.digest) (.commitDigest commit.generation)

def sealCatalogSnapshot (sha : Sha) (snapshot : CatalogSnapshot) : CatalogSnapshot :=
  { snapshot with digest := sha.snapshot { snapshot with digest := "" } }

def verifyCatalogSnapshot (sha : Sha) (snapshot : CatalogSnapshot) : Except CatalogError Unit := do
  refuse (snapshot.state.generation ≠ snapshot.generation)
    (.snapshotGeneration snapshot.generation snapshot.state.generation)
  refuse (snapshot.state.lastDigest ≠ snapshot.throughDigest) (.snapshotThroughDigest snapshot.generation)
  refuse ((sealCatalogSnapshot sha snapshot).digest ≠ snapshot.digest) (.snapshotDigest snapshot.generation)

/-- The path has one component, which is a plain name. -/
def isSafePathComponent (value : String) : Bool :=
  let pieces := value.toList.splitOn '/'
  let names := pieces.filter fun piece => piece ≠ [] ∧ piece ≠ ['.']
  pieces.head? ≠ some [] && pieces.head? ≠ some ['.'] && names.length = 1 && names ≠ [['.', '.']]

def validateParts (signal : Signal) (manifest : Manifest) : Except CatalogError Unit :=
  refuse (¬ ((∀ part ∈ manifest.parts, isSafePathComponent part.id ∧ isSafePathComponent part.partition) ∧
    (manifest.parts.map (·.id)).Nodup)) (.invalidPart signal)

def validateManifest : Manifest → Except CatalogError Unit := validateParts .logs

def validateTraceManifest : Manifest → Except CatalogError Unit := validateParts .traces

def validateMetricManifest : Manifest → Except CatalogError Unit := validateParts .metrics

/-! ## Applying a commit -/

/-- `u64::checked_add` of one. -/
def checkedSucc (n : Nat) (overflow : CatalogError) : Except CatalogError Nat :=
  if n + 1 < 2 ^ 64 then .ok (n + 1) else .error overflow

def PartName.before (left right : PartName) : Bool :=
  ((compare left.partition right.partition).then (compare left.id right.id)).isLE

def addPart (signal : Signal) (parts : List PartName) (part : PartName) : Except CatalogError (List PartName) :=
  match parts.find? (·.id = part.id) with
  | some existing => do
    refuse (existing ≠ part) (.partCollision signal part.id)
    pure parts
  | none => .ok (parts ++ [part])

def applyParts (signal : Signal) (parts added : List PartName) (removed : List String) :
    Except CatalogError (List PartName) := do
  let parts ← added.foldlM (addPart signal) (parts.filter (·.id ∉ removed))
  pure (parts.mergeSort PartName.before)

def applyLogParts : List PartName → List PartName → List String → Except CatalogError (List PartName) :=
  applyParts .logs

def applyTraceParts : List PartName → List PartName → List String → Except CatalogError (List PartName) :=
  applyParts .traces

def applyMetricParts : List PartName → List PartName → List String → Except CatalogError (List PartName) :=
  applyParts .metrics

/-- The epoch of a commit is the one of the state, or the next one when the commit claims it. -/
def checkCommitEpoch (state : CatalogState) (commit : CatalogCommit) : Except CatalogError Unit :=
  if commit.mutation.claimWriter then do
    let expected ← checkedSucc state.writerEpoch .epochOverflow
    refuse (commit.mutation.writerEpoch ≠ expected)
      (.epochAdvance state.writerEpoch expected commit.mutation.writerEpoch)
  else refuse (commit.mutation.writerEpoch ≠ state.writerEpoch) (.epochWithoutClaim commit.generation)

def applyCatalogMutation (state : CatalogState) (commit : CatalogCommit) : Except CatalogError CatalogState := do
  refuse (commit.parentGeneration ≠ state.generation)
    (.parentGeneration commit.generation commit.parentGeneration state.generation)
  refuse (commit.parentDigest ≠ state.lastDigest) (.parentDigest commit.generation)
  let expected ← checkedSucc state.generation .generationOverflow
  refuse (commit.generation ≠ expected) (.generationAdvance state.generation expected commit.generation)
  checkCommitEpoch state commit
  let mutation := commit.mutation
  let logs ← applyLogParts state.manifest.parts mutation.logAdded mutation.logRemoved
  let traces ← applyTraceParts state.traceManifest.parts mutation.traceAdded mutation.traceRemoved
  let metrics ← applyMetricParts state.metricManifest.parts mutation.metricAdded mutation.metricRemoved
  let manifest (parts : List PartName) : Manifest := ⟨commit.generation, mutation.writerEpoch, parts⟩
  validateManifest (manifest logs)
  validateTraceManifest (manifest traces)
  validateMetricManifest (manifest metrics)
  pure ⟨commit.generation, mutation.writerEpoch, commit.digest, mutation.transactionId, manifest logs, manifest traces,
    manifest metrics⟩

/-! ## Calls -/

/-- What the bytes of a catalog object are read as. -/
inductive CatalogObject
  | commit (commit : CatalogCommit)
  | snapshot (snapshot : CatalogSnapshot)
  | damaged
deriving DecidableEq

inductive CatalogOp
  | get (kind : CatalogKind) (replica : Replica) (generation : Nat)
  | create (kind : CatalogKind) (replica : Replica) (generation : Nat) (object : CatalogObject)
  | list (kind : CatalogKind) (replica : Replica) (offset : Option Nat)
  | listAged (kind : CatalogKind) (replica : Replica)
  | delete (kind : CatalogKind) (replica : Replica) (generation : Nat)
  | legacyManifest (signal : Signal)
  | upload (path : String)
  | deleteObject (path : String)
  | readCache
  | writeCache (state : Option CatalogState)
  | readEpoch
  | writeEpoch (epoch : Nat)

@[reducible]
def CatalogOp.Answer : CatalogOp → Type
  | get .. => Except Unit (Option CatalogObject)
  | create .. => Except Unit Bool
  | list .. => Except Unit (List Nat)
  -- a generation, and whether its object was last modified before the cutoff
  | listAged .. => Except Unit (List (Nat × Bool))
  | delete .. => Except Unit Unit
  | legacyManifest .. => Except Unit Bool
  | upload .. => Except Unit Unit
  | deleteObject .. => Except Unit Unit
  | readCache => Option CatalogState
  | writeCache .. => Unit
  | readEpoch => Nat
  | writeEpoch .. => Unit

abbrev CatalogM : Type → Type := Calls CatalogOp CatalogOp.Answer CatalogError

def ask (op : CatalogOp) : CatalogM op.Answer := Calls.perform op

/-- A call of the object store, with the error its failure is reported as. -/
def storeCall {α : Type} (error : CatalogError) (call : CatalogM (Except Unit α)) : CatalogM α := do
  match ← call with
  | .ok a => pure a
  | .error () => throw error

def catalogGet (kind : CatalogKind) (replica : Replica) (generation : Nat) : CatalogM (Option CatalogObject) :=
  storeCall .readFailed (ask (.get kind replica generation))

/-- `false` when the object is already there. -/
def catalogPutCreate (kind : CatalogKind) (replica : Replica) (generation : Nat) (object : CatalogObject) :
    CatalogM Bool :=
  storeCall .createFailed (ask (.create kind replica generation object))

/-- The generations that either replica lists, in order. -/
def catalogGenerations (kind : CatalogKind) (offset : Option Nat) : CatalogM (List Nat) := do
  let first ← storeCall .listFailed (ask (.list kind .a offset))
  let second ← storeCall .listFailed (ask (.list kind .b offset))
  pure (ExtTreeSet.ofList (first ++ second) compare).toList

/-! ## Loading -/

section Loading

variable (sha : Sha)

def loadCatalogCommitReplica (generation : Nat) (replica : Replica) : CatalogM (Option CatalogCommit) := do
  match ← catalogGet .commits replica generation with
  | none => pure none
  | some (.commit commit) =>
    Calls.ofExcept (verifyCatalogCommit sha commit)
    Calls.ofExcept (refuse (commit.generation ≠ generation) (.containsGeneration .commits replica generation))
    pure (some commit)
  | some _ => throw (.invalidObject .commits replica generation)

def loadCatalogSnapshotReplica (generation : Nat) (replica : Replica) : CatalogM (Option CatalogSnapshot) := do
  match ← catalogGet .snapshots replica generation with
  | none => pure none
  | some (.snapshot snapshot) =>
    Calls.ofExcept (verifyCatalogSnapshot sha snapshot)
    Calls.ofExcept (validateManifest snapshot.state.manifest)
    Calls.ofExcept (validateTraceManifest snapshot.state.traceManifest)
    Calls.ofExcept (validateMetricManifest snapshot.state.metricManifest)
    Calls.ofExcept (refuse (snapshot.generation ≠ generation) (.containsGeneration .snapshots replica generation))
    pure (some snapshot)
  | some _ => throw (.invalidObject .snapshots replica generation)

/-- One value out of what two replicas read as. A replica that is absent is written again from the other one. -/
def reconcileReplicas {α : Type} (kind : CatalogKind) (digest : α → String) (object : α → CatalogObject)
    (generation : Nat) (first second : Except CatalogError (Option α)) : CatalogM α :=
  match first, second with
  | .ok (some first), .ok (some second) => do
    Calls.ofExcept (refuse (digest first ≠ digest second) (.divergentReplicas kind generation))
    pure first
  | .ok (some first), .ok none => do
    let _ ← catalogPutCreate kind .b generation (object first)
    pure first
  | .ok none, .ok (some second) => do
    let _ ← catalogPutCreate kind .a generation (object second)
    pure second
  | .error _, .ok (some second) => pure second
  | .ok (some first), .error _ => pure first
  | .error _, .error _ => throw (.bothInvalid kind generation)
  | .error _, .ok none => throw (.invalidGeneration kind generation)
  | .ok none, .error _ => throw (.invalidGeneration kind generation)
  | .ok none, .ok none => throw (.missing kind generation)

def loadReplicated {α : Type} (kind : CatalogKind) (digest : α → String) (object : α → CatalogObject)
    (generation : Nat) (replica : Replica → CatalogM (Option α)) : CatalogM α := do
  let first ← (replica .a).attempt
  let second ← (replica .b).attempt
  reconcileReplicas kind digest object generation first second

def loadCatalogCommit (generation : Nat) : CatalogM CatalogCommit :=
  loadReplicated .commits (·.digest) .commit generation (loadCatalogCommitReplica sha generation)

def loadCatalogSnapshot (generation : Nat) : CatalogM CatalogSnapshot :=
  loadReplicated .snapshots (·.digest) .snapshot generation (loadCatalogSnapshotReplica sha generation)

/-- The first snapshot of a list that can be loaded. -/
def firstSnapshot : List Nat → CatalogM (Option CatalogSnapshot)
  | [] => pure none
  | generation :: generations => do
    match ← (loadCatalogSnapshot sha generation).attempt with
    | .ok snapshot => pure (some snapshot)
    | .error _ => firstSnapshot generations

def loadLatestCatalogSnapshot : CatalogM (Option CatalogSnapshot) := do
  firstSnapshot sha (← catalogGenerations .snapshots none).reverse

def checkLegacyManifest (signal : Signal) : CatalogM Unit := do
  let present ← storeCall .readFailed (ask (.legacyManifest signal))
  Calls.ofExcept (refuse (present = true) (.legacyManifest signal))

/-- The commits of consecutive generations, applied to a state. -/
def replayCommits (state : CatalogState) : List Nat → CatalogM CatalogState
  | [] => pure state
  | generation :: generations => do
    let expected ← Calls.ofExcept (checkedSucc state.generation .generationOverflow)
    Calls.ofExcept (refuse (generation ≠ expected) (.generationGap state.generation generation))
    let commit ← loadCatalogCommit sha generation
    Calls.ofExcept (verifyCatalogCommit sha commit)
    replayCommits (← Calls.ofExcept (applyCatalogMutation state commit)) generations

/-- The cache of a handle after it computed a state: the empty state is not kept. -/
def cacheState (state : CatalogState) : CatalogM Unit :=
  if state.generation > 0 then ask (.writeCache (some state)) else pure ()

/-- The part of `load_catalog_state` that runs when nothing is cached. -/
def freshCatalogState : CatalogM CatalogState := do
  let state := ((← loadLatestCatalogSnapshot sha).map (·.state)).getD {}
  let generations ← catalogGenerations .commits (some state.generation)
  checkLegacyManifest .logs
  checkLegacyManifest .traces
  checkLegacyManifest .metrics
  let state ← replayCommits sha state generations
  cacheState state
  pure state

def loadCatalogState : CatalogM CatalogState := do
  match ← ask .readCache with
  | some state => pure state
  | none => freshCatalogState sha

/-! ## Snapshots and pruning -/

def catalogSnapshotInterval : Nat := 256

/-- An object is created, or found with the same content. -/
def createSame (kind : CatalogKind) (replica : Replica) (generation : Nat) (object : CatalogObject) :
    CatalogM Unit := do
  if ← catalogPutCreate kind replica generation object then pure ()
  else
    match ← catalogGet kind replica generation with
    | none => throw (.disappeared kind replica generation)
    | some existing => Calls.ofExcept (refuse (existing ≠ object) (.replicaDiffers kind replica generation))

def CatalogState.snapshot (state : CatalogState) : CatalogSnapshot :=
  sealCatalogSnapshot sha ⟨state.generation, state.lastDigest, state, ""⟩

def writeCatalogSnapshot (state : CatalogState) : CatalogM Unit := do
  createSame .snapshots .a state.generation (.snapshot (state.snapshot sha))
  createSame .snapshots .b state.generation (.snapshot (state.snapshot sha))

/-- Both replicas of a snapshot are valid and the same, and the commit at its generation is the one it closes over. -/
def catalogSnapshotIsIntact (generation : Nat) : CatalogM Bool := do
  let first ← (loadCatalogSnapshotReplica sha generation .a).attempt
  let second ← (loadCatalogSnapshotReplica sha generation .b).attempt
  match first, second with
  | .ok (some first), .ok (some second) =>
    if first ≠ second then pure false
    else
      match ← (loadCatalogCommit sha generation).attempt with
      | .ok commit => pure (commit.digest = first.throughDigest)
      | .error _ => pure false
  | _, _ => pure false

/-- The first intact snapshots of a list, up to a number of them. -/
def intactSnapshots : Nat → List Nat → CatalogM (List Nat)
  | 0, _ => pure []
  | _, [] => pure []
  | n + 1, generation :: generations => do
    if ← catalogSnapshotIsIntact sha generation then pure (generation :: (← intactSnapshots n generations))
    else intactSnapshots (n + 1) generations

def deleteGenerations (kind : CatalogKind) (replica : Replica) : List Nat → CatalogM Nat
  | [] => pure 0
  | generation :: generations => do
    storeCall .deleteFailed (ask (.delete kind replica generation))
    pure ((← deleteGenerations kind replica generations) + 1)

/-- What is older than the snapshots that are kept, and last modified before the cutoff, is deleted. -/
def deleteSuperseded (oldestKept : Nat) (kind : CatalogKind) (replica : Replica) : CatalogM Nat := do
  let listed ← storeCall .listFailed (ask (.listAged kind replica))
  deleteGenerations kind replica ((listed.filter fun (generation, aged) => generation < oldestKept && aged).map
    Prod.fst)

def pruneCatalog : CatalogM Nat := do
  let generations ← catalogGenerations .snapshots none
  match ← intactSnapshots sha 2 generations.reverse with
  | [_, oldestKept] =>
    let snapshotsA ← deleteSuperseded oldestKept .snapshots .a
    let snapshotsB ← deleteSuperseded oldestKept .snapshots .b
    let commitsA ← deleteSuperseded oldestKept .commits .a
    let commitsB ← deleteSuperseded oldestKept .commits .b
    pure (snapshotsA + snapshotsB + commitsA + commitsB)
  | _ => pure 0

/-! ## Committing -/

def maxCasAttempts : Nat := 16

/-- A handle that holds no epoch is let through. -/
def checkEpoch (held observed : Nat) : Except CatalogError Unit :=
  refuse (¬ (held = 0 ∨ observed = held)) (.fenced held observed)

/-- How a call of `commit_catalog_mutation` came to its answer. -/
inductive CommitEnd
  /-- the transaction was the last one of the state already -/
  | repeated
  /-- the mutation does not change the state -/
  | unchanged
  /-- the mutation was committed -/
  | applied
deriving DecidableEq

/-- The answer of `commit_catalog_mutation`, with the epoch the handle held when it checked the state. -/
structure Committed where
  state : CatalogState
  held : Nat
  ending : CommitEnd

def CatalogState.sameParts (state next : CatalogState) : Bool :=
  next.manifest.parts = state.manifest.parts && next.traceManifest.parts = state.traceManifest.parts &&
    next.metricManifest.parts = state.metricManifest.parts

/-- The commit of a mutation on top of a state. -/
def CatalogState.commit (state : CatalogState) (mutation : CatalogMutation) : Except CatalogError CatalogCommit := do
  let generation ← checkedSucc state.generation .generationOverflow
  pure (sealCatalogCommit sha ⟨generation, state.generation, state.lastDigest, mutation, ""⟩)

/-- A failing snapshot is only logged. -/
def snapshotOnInterval (state : CatalogState) : CatalogM Unit :=
  if state.generation % catalogSnapshotInterval = 0 then do
    let _ ← ((writeCatalogSnapshot sha state).attempt : CatalogM _)
    pure ()
  else pure ()

/-- The two replicas of a commit. `false` when the generation is taken. -/
def writeCommit (commit : CatalogCommit) : CatalogM Bool := do
  if ← catalogPutCreate .commits .a commit.generation (.commit commit) then
    createSame .commits .b commit.generation (.commit commit)
    pure true
  else pure false

/-- The part of an attempt that builds the commit on the loaded state. `none` asks for another attempt. -/
def commitOn (mutation : CatalogMutation) (held : Nat) (state : CatalogState) : CatalogM (Option Committed) := do
  let commit ← Calls.ofExcept (state.commit sha mutation)
  let next ← Calls.ofExcept (applyCatalogMutation state commit)
  if !mutation.claimWriter && state.sameParts next then
    ask (.writeCache (some state))
    pure (some ⟨state, held, .unchanged⟩)
  else if ← writeCommit commit then
    ask (.writeCache (some next))
    snapshotOnInterval sha next
    pure (some ⟨next, held, .applied⟩)
  else
    ask (.writeCache none)
    pure none

def commitAttempt (mutation : CatalogMutation) : CatalogM (Option Committed) := do
  let state ← loadCatalogState sha
  let held ← ask .readEpoch
  Calls.ofExcept (checkEpoch held state.writerEpoch)
  if state.lastTransactionId = mutation.transactionId then pure (some ⟨state, held, .repeated⟩)
  else if mutation.claimWriter then
    let expected ← Calls.ofExcept (checkedSucc state.writerEpoch .epochOverflow)
    if mutation.writerEpoch ≠ expected then pure none else commitOn sha mutation held state
  else if mutation.writerEpoch ≠ state.writerEpoch then throw (.mutationEpoch mutation.writerEpoch state.writerEpoch)
  else commitOn sha mutation held state

def commitAttempts (mutation : CatalogMutation) : Nat → CatalogM Committed
  | 0 => throw .retryLimit
  | n + 1 => do
    match ← commitAttempt sha mutation with
    | some committed => pure committed
    | none => commitAttempts mutation n

def commitCatalogMutation (mutation : CatalogMutation) : CatalogM Committed :=
    commitAttempts sha mutation maxCasAttempts

/-- The mutation of a claim takes the transaction id that is drawn for it. -/
def claimWriterEpoch (transactionId : String) : CatalogM Committed := do
  let state ← loadCatalogState sha
  let epoch ← Calls.ofExcept (checkedSucc state.writerEpoch .epochOverflow)
  let committed ← commitCatalogMutation sha { transactionId, writerEpoch := epoch, claimWriter := true }
  ask (.writeEpoch committed.state.writerEpoch)
  pure committed

end Loading

/-! ## What the handles share -/

/-- The call is one of the object store. -/
def CatalogOp.remote : CatalogOp → Bool
  | readCache | writeCache _ | readEpoch | writeEpoch _ => false
  | _ => true

abbrev CatalogObjects := ExtTreeMap Nat CatalogObject compare

/-- The catalog objects by their generation, and the paths of the other objects. -/
structure Bucket where
  commitsA : CatalogObjects := ∅
  commitsB : CatalogObjects := ∅
  snapshotsA : CatalogObjects := ∅
  snapshotsB : CatalogObjects := ∅
  legacy : List Signal := []
  objects : List String := []

def Bucket.of (bucket : Bucket) : CatalogKind → Replica → CatalogObjects
  | .commits, .a => bucket.commitsA
  | .commits, .b => bucket.commitsB
  | .snapshots, .a => bucket.snapshotsA
  | .snapshots, .b => bucket.snapshotsB

def Bucket.update (bucket : Bucket) (kind : CatalogKind) (replica : Replica) (f : CatalogObjects → CatalogObjects) :
    Bucket :=
  match kind, replica with
  | .commits, .a => { bucket with commitsA := f bucket.commitsA }
  | .commits, .b => { bucket with commitsB := f bucket.commitsB }
  | .snapshots, .a => { bucket with snapshotsA := f bucket.snapshotsA }
  | .snapshots, .b => { bucket with snapshotsB := f bucket.snapshotsB }

/-- What an `ObjectStorage` keeps in memory. -/
structure Handle where
  cache : Option CatalogState := none
  epoch : Nat := 0

/--
The bucket and the handles on it. Beside them the history: the commits whose first replica was created as the next
generation, the last one first, and the generations whose first replica was deleted.
-/
structure Site where
  bucket : Bucket := {}
  handles : List Handle := []
  history : List CatalogCommit := []
  pruned : List Nat := []

/-- How a call to the object store ends. A listing that is done also says which objects are old enough. -/
structure Reply where
  outcome : StoreOutcome := .done
  aged : List Nat := []
deriving DecidableEq

namespace Site

/-- The commits in the order of their generations. -/
def chain (site : Site) : List CatalogCommit := site.history.reverse

def handle (site : Site) (h : Nat) : Handle := site.handles[h]?.getD {}

def setHandle (site : Site) (h : Nat) (f : Handle → Handle) : Site :=
  { site with handles := site.handles.modify h f }

/-- A creation that takes effect. The first replica of the next commit makes it part of the history. -/
def create (site : Site) (kind : CatalogKind) (replica : Replica) (generation : Nat) (object : CatalogObject) : Site :=
  { site with
    bucket := site.bucket.update kind replica (·.insert generation object)
    history :=
      match kind, replica, object with
      | .commits, .a, .commit commit =>
        if generation = site.history.length + 1 then commit :: site.history else site.history
      | _, _, _ => site.history }

def delete (site : Site) (kind : CatalogKind) (replica : Replica) (generation : Nat) : Site :=
  { site with
    bucket := site.bucket.update kind replica (·.erase generation)
    pruned :=
      match kind, replica with
      | .commits, .a => generation :: site.pruned
      | _, _ => site.pruned }

def setObjects (site : Site) (f : List String → List String) : Site :=
  { site with bucket := { site.bucket with objects := f site.bucket.objects } }

/-- A call that takes effect. -/
def effect (site : Site) (h : Nat) : CatalogOp → Site
  | .create kind replica generation object =>
    if generation ∈ site.bucket.of kind replica then site else site.create kind replica generation object
  | .delete kind replica generation => site.delete kind replica generation
  | .upload path => site.setObjects fun objects => if path ∈ objects then objects else path :: objects
  | .deleteObject path => site.setObjects (·.filter (· ≠ path))
  | .writeCache state => site.setHandle h fun handle => { handle with cache := state }
  | .writeEpoch epoch => site.setHandle h fun handle => { handle with epoch }
  | _ => site

/-- What a call that is done answers. -/
def answer (site : Site) (h : Nat) (aged : List Nat) : (op : CatalogOp) → op.Answer
  | .get kind replica generation => .ok (site.bucket.of kind replica)[generation]?
  | .create kind replica generation _ => .ok (generation ∉ site.bucket.of kind replica)
  | .list kind replica offset => .ok ((site.bucket.of kind replica).keys.filter fun generation => ∀ o ∈ offset,
      o < generation)
  | .listAged kind replica => .ok ((site.bucket.of kind replica).keys.map fun generation =>
    (generation, generation ∈ aged))
  | .delete .. => .ok ()
  | .legacyManifest signal => .ok (signal ∈ site.bucket.legacy)
  | .upload _ => .ok ()
  | .deleteObject _ => .ok ()
  | .readCache => (site.handle h).cache
  | .writeCache _ => ()
  | .readEpoch => (site.handle h).epoch
  | .writeEpoch _ => ()

/-- What a call answers when it fails: what the handle keeps in memory does not. -/
def refusal (site : Site) (h : Nat) : (op : CatalogOp) → op.Answer
  | .get .. | .create .. | .list .. | .listAged .. | .delete .. | .legacyManifest .. | .upload .. | .deleteObject .. =>
    .error ()
  | .readCache => (site.handle h).cache
  | .writeCache _ => ()
  | .readEpoch => (site.handle h).epoch
  | .writeEpoch _ => ()

def perform (site : Site) (h : Nat) (reply : Reply) (op : CatalogOp) : op.Answer × Site :=
  match reply.outcome with
  | .done => (site.answer h reply.aged op, site.effect h op)
  | .failed => (site.refusal h op, if op.remote then site else site.effect h op)
  | .lost => (site.refusal h op, site.effect h op)

end Site

end Signy
