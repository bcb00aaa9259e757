/-
Collection of deploy artifacts of one project: `bundle_gc` and `deploy_artifact_prune`.

A pass takes one step at a time, reads at one moment and deletes at a later one. Compiles, activations and uploads
happen at any time in between. The clock counts milliseconds. What a version was named from which time on is kept as a
history.
-/
import Mathlib
import Fn0.Lib.Steps
import Fn0.Control.Deployment

namespace Collect

open Std (ExtTreeMap ExtTreeSet)
open Deploy

def staleRegistryGraceSecs : Nat := 60

def staticAssetGraceSecs : Nat := 24 * 60 * 60

def abandonedUploadTtlSecs : Nat := 24 * 60 * 60

def queryPageLimit : Nat := 256

def retainedVersionsBelowActive : Nat := 2

/-- Whole seconds from one time to another, none if it is later. -/
def secondsSince (now earlier : Nat) : Nat := (now - earlier) / 1000

abbrev Asset := Nat × String

inductive Removal
  | compiled (fn0WasmtimeVersion : String) (codeVersion : Nat)
  | original (codeVersion : Nat)
  | row (codeVersion : Nat)

/-- What is removed for the versions below the latest. A version compiled for the pending runtime is spared. -/
def removals (pending : Option String) (latest : Nat) (docs : List (Nat × CompiledBundleDoc)) : List Removal :=
  docs.flatMap fun doc =>
    if doc.1 ≥ latest then []
    else if pending.any fun pending => doc.2.fn0WasmtimeVersions.contains pending then []
    else doc.2.fn0WasmtimeVersions.map (.compiled · doc.1) ++ [.original doc.1, .row doc.1]

/-- The two greatest versions below the active one. -/
def retainedVersions (versions : List Nat) (activeCodeVersion : Nat) : List Nat :=
  (ExtTreeSet.ofList (versions.filter (· < activeCodeVersion)) compare).toList.reverse.take retainedVersionsBelowActive

def prunableKeys (objects : List Asset) (activeCodeVersion : Nat) : List Asset :=
  objects.filter fun object => object.1 < activeCodeVersion &&
    !(retainedVersions (objects.map Prod.fst) activeCodeVersion).contains object.1

/-- What a pass does next. -/
inductive Point
  | readPending
  | readManifest (pending : Option String)
  | queryBundles (pending : Option String) (latest : Nat) (after : Option Nat) (found : List (Nat × CompiledBundleDoc))
  | deleteVersions (latest : Nat) (assetsToo : Bool) (work : List Removal)
  | listAssets (latest : Nat)
  | deleteAssets (work : List Asset)
  | listOriginals
  | listCompiled (originals : List (Nat × Nat))
  | checkUploads (originals : List (Nat × Nat)) (compiledPairs : List Nat)
  | deleteUpload (codeVersion : Nat) (originals : List (Nat × Nat)) (compiledPairs : List Nat)
  | listUploadAssets (codeVersion : Nat) (originals : List (Nat × Nat)) (compiledPairs : List Nat)
  | deleteUploadAssets (work : List Asset) (originals : List (Nat × Nat)) (compiledPairs : List Nat)
  | pruneManifest
  | pruneReread (activeCodeVersion : Nat)
  | pruneList (activeCodeVersion : Nat)
  | pruneAssets (work : List Asset)

/-- The uploads that a pass has listed and not looked at yet. -/
def Point.uploads : Point → List (Nat × Nat)
  | .listCompiled originals | .checkUploads originals _ | .deleteUpload _ originals _ | .listUploadAssets _ originals _
  | .deleteUploadAssets _ originals _ => originals
  | _ => []

structure Pass where
  now : Nat
  point : Point

structure System where
  clock : Nat := 0
  docs : Docs
  pendingFn0WasmtimeVersion : Option String := none
  compiled : List (String × Nat) := []
  /-- versions with the time of their upload -/
  originals : List (Nat × Nat) := []
  assets : List Asset := []
  passes : List Pass := []
  /-- the versions that the manifest named, the last first, with the time from which on -/
  history : List (Nat × Nat) := [(0, 0)]

inductive Action
  | tick (milliseconds : Nat)
  | upload (codeVersion : Nat)
  | uploadAsset (codeVersion : Nat) (name : String)
  | compile (codeVersion : Nat) (fn0WasmtimeVersion : String)
  | callback (now codeVersion : Nat) (fn0WasmtimeVersion : String)
  | setActivating (codeVersion : Nat)
  | setActive (codeVersion : Nat)
  | setPending (fn0WasmtimeVersion : Option String)
  | collect
  | prune
  | advance (pass : Nat)
  | fail (pass : Nat)

namespace System

def write (s : System) (docs : Docs) : System := { s with docs, history := (s.clock, named docs) :: s.history }

def remove (s : System) : Removal → System
  | .compiled fn0WasmtimeVersion codeVersion =>
    { s with compiled := s.compiled.filter (· ≠ (fn0WasmtimeVersion, codeVersion)) }
  | .original codeVersion => { s with originals := s.originals.filter (·.1 ≠ codeVersion) }
  | .row codeVersion => { s with docs := { s.docs with bundles := s.docs.bundles.erase codeVersion } }

def removeAsset (s : System) (asset : Asset) : System := { s with assets := s.assets.filter (· ≠ asset) }

/-- The next page of compiled bundles. -/
def bundlesPage (s : System) (after : Option Nat) : List (Nat × CompiledBundleDoc) :=
  (s.docs.bundles.toList.filter fun doc => after.all (· < doc.1)).take queryPageLimit

/-- What follows when the bundles were read: the age of the latest one's row decides. -/
def superseded (now : Nat) (pending : Option String) (latest : Nat) (docs : List (Nat × CompiledBundleDoc)) : Point :=
  match docs.find? (·.1 == latest) with
  | none => .listOriginals
  | some latestDoc =>
    .deleteVersions latest (staticAssetGraceSecs ≤ secondsSince now latestDoc.2.createdAt)
      (if staleRegistryGraceSecs ≤ secondsSince now latestDoc.2.createdAt then removals pending latest docs else [])

/-- One step of a pass, and what it does next: `none` when it has returned. -/
def perform (s : System) (now : Nat) : Point → System × Option Point
  | .readPending => (s, some (.readManifest s.pendingFn0WasmtimeVersion))
  | .readManifest pending =>
    match s.docs.entry with
    | none => (s, some .listOriginals)
    | some entry => (s, some (.queryBundles pending entry.codeVersion none []))
  | .queryBundles pending latest after found =>
    let page := s.bundlesPage after
    let found := found ++ page
    if page.length < queryPageLimit then (s, some (superseded now pending latest found))
    else (s, some (.queryBundles pending latest (page.getLast?.elim after fun doc => some doc.1) found))
  | .deleteVersions latest assetsToo (removal :: work) =>
    (s.remove removal, some (.deleteVersions latest assetsToo work))
  | .deleteVersions latest assetsToo [] => (s, some (if assetsToo then .listAssets latest else .listOriginals))
  | .listAssets latest => (s, some (.deleteAssets (s.assets.filter (·.1 < latest))))
  | .deleteAssets (asset :: work) => (s.removeAsset asset, some (.deleteAssets work))
  | .deleteAssets [] => (s, some .listOriginals)
  | .listOriginals => (s, some (.listCompiled s.originals))
  | .listCompiled originals => (s, some (.checkUploads originals (s.compiled.map Prod.snd)))
  | .checkUploads (original :: originals) compiledPairs =>
    if secondsSince now original.2 < abandonedUploadTtlSecs ∨ s.docs.bundles[original.1]?.isSome ∨
        original.1 ∈ compiledPairs then (s, some (.checkUploads originals compiledPairs))
    else (s, some (.deleteUpload original.1 originals compiledPairs))
  | .checkUploads [] _ => (s, none)
  | .deleteUpload codeVersion originals compiledPairs =>
    (s.remove (.original codeVersion), some (.listUploadAssets codeVersion originals compiledPairs))
  | .listUploadAssets codeVersion originals compiledPairs =>
    (s, some (.deleteUploadAssets (s.assets.filter (·.1 = codeVersion)) originals compiledPairs))
  | .deleteUploadAssets (asset :: work) originals compiledPairs =>
    (s.removeAsset asset, some (.deleteUploadAssets work originals compiledPairs))
  | .deleteUploadAssets [] originals compiledPairs => (s, some (.checkUploads originals compiledPairs))
  | .pruneManifest =>
    match s.docs.entry with
    | none => (s, none)
    | some entry => if entry.staticCacheState = .active then (s, some (.pruneReread entry.codeVersion)) else (s, none)
  | .pruneReread activeCodeVersion =>
    match s.docs.entry with
    | none => (s, none)
    | some entry =>
      if entry.codeVersion = activeCodeVersion ∧ entry.staticCacheState = .active then
        (s, some (.pruneList activeCodeVersion))
      else (s, none)
  | .pruneList activeCodeVersion => (s, some (.pruneAssets (prunableKeys s.assets activeCodeVersion)))
  | .pruneAssets (asset :: work) => (s.removeAsset asset, some (.pruneAssets work))
  | .pruneAssets [] => (s, none)

def resume (s : System) (i : Nat) (pass : Pass) : Option Point → System
  | some point => { s with passes := s.passes.set i { pass with point } }
  | none => { s with passes := s.passes.eraseIdx i }

def step (s : System) : Action → Option System
  | .tick milliseconds => some { s with clock := s.clock + milliseconds }
  | .upload codeVersion => some { s with originals := (codeVersion, s.clock) :: s.originals.filter (·.1 ≠ codeVersion) }
  | .uploadAsset codeVersion name => some { s with assets := (codeVersion, name) :: s.assets }
  | .compile codeVersion fn0WasmtimeVersion =>
    some { s with compiled := (fn0WasmtimeVersion, codeVersion) :: s.compiled }
  | .callback now codeVersion fn0WasmtimeVersion =>
    if now ≤ s.clock then some (s.write (bundleCompiled s.docs now codeVersion fn0WasmtimeVersion).1) else none
  | .setActivating codeVersion => some (s.write (Deploy.setActivating s.docs codeVersion))
  | .setActive codeVersion => some (s.write (Deploy.setActive s.docs codeVersion))
  | .setPending fn0WasmtimeVersion => some { s with pendingFn0WasmtimeVersion := fn0WasmtimeVersion }
  | .collect => some { s with passes := s.passes ++ [⟨s.clock, .readPending⟩] }
  | .prune => some { s with passes := s.passes ++ [⟨s.clock, .pruneManifest⟩] }
  | .advance i =>
    match s.passes[i]? with
    | none => none
    | some pass =>
      let result := s.perform pass.now pass.point
      some (result.1.resume i pass result.2)
  | .fail i => some { s with passes := s.passes.eraseIdx i }

/-- The project has a domain, and nothing is uploaded yet. -/
def start (domain : String) (activeFn0WasmtimeVersion : Option String) : System where
  docs := { entry := some { domain }, activeFn0WasmtimeVersion }

/-! ## What is promised -/

/-- The version that the manifest named at a time. -/
def versionAt (s : System) (time : Nat) : Nat := ((s.history.find? (·.1 ≤ time)).map Prod.snd).getD 0

/-- The manifest has named this version or a greater one all the time for so many seconds. -/
def NamedFor (s : System) (seconds codeVersion : Nat) : Prop :=
  seconds * 1000 ≤ s.clock ∧ ∀ time, s.clock - seconds * 1000 ≤ time → time ≤ s.clock → codeVersion ≤ s.versionAt time

/-- The manifest has named the version. -/
def Served (s : System) (codeVersion : Nat) : Prop := codeVersion ∈ s.history.map Prod.snd

/-- The grace periods: what a step may take away. -/
structure Graceful (s t : System) : Prop where
  compiled : ∀ fn0WasmtimeVersion codeVersion, (fn0WasmtimeVersion, codeVersion) ∈ s.compiled →
    (fn0WasmtimeVersion, codeVersion) ∉ t.compiled → s.NamedFor staleRegistryGraceSecs (codeVersion + 1)
  assets : ∀ codeVersion name, (codeVersion, name) ∈ s.assets → (codeVersion, name) ∉ t.assets → s.Served codeVersion →
    s.NamedFor staticAssetGraceSecs (codeVersion + 1)

/-- Nothing of the served version or a greater one is taken away. -/
structure Spares (s t : System) : Prop where
  compiled : ∀ compiled ∈ s.compiled, named s.docs ≤ compiled.2 → compiled ∈ t.compiled
  originals : ∀ original ∈ s.originals, named s.docs ≤ original.1 → ∃ time, (original.1, time) ∈ t.originals
  assets : ∀ asset ∈ s.assets, named s.docs ≤ asset.1 → asset ∈ t.assets
  rows : ∀ codeVersion, named s.docs ≤ codeVersion → s.docs.bundles[codeVersion]?.isSome →
    t.docs.bundles[codeVersion]?.isSome

/-- The manifest named this version or a greater one already so many seconds ago. -/
def NamedSince (s : System) (seconds codeVersion : Nat) : Prop :=
  seconds * 1000 ≤ s.clock ∧ codeVersion ≤ s.versionAt (s.clock - seconds * 1000)

instance (s : System) (seconds codeVersion : Nat) : Decidable (s.NamedSince seconds codeVersion) :=
  inferInstanceAs (Decidable (_ ∧ _))

/-- The versions with assets strictly between two versions. -/
def versionsBetween (s : System) (codeVersion activeCodeVersion : Nat) : List Nat :=
  (s.assets.map Prod.fst).dedup.filter fun other => codeVersion < other ∧ other < activeCodeVersion

/-- An upload of the version is there, or a pass has listed one and will look at it. -/
def Uploaded (s : System) (codeVersion : Nat) : Prop :=
  (∃ original ∈ s.originals, original.1 = codeVersion) ∨
    ∃ pass ∈ s.passes, ∃ original ∈ pass.point.uploads, original.1 = codeVersion

instance (s : System) (codeVersion : Nat) : Decidable (s.Uploaded codeVersion) := inferInstanceAs (Decidable (_ ∨ _))

/--
When a pass has read the rows and that of the latest version is as old as a grace period, so is the switch to it. When
the row of a served version goes, its upload has gone before and no other pass has listed it. When the assets are listed
for pruning, fewer versions than are retained were deployed between the active one and one superseded within the grace
period.
-/
def Timely (s : System) (now : Nat) : Point → Prop
  | .queryBundles _ latest after found => ∀ doc ∈ found ++ s.bundlesPage after, doc.1 = latest →
    (staleRegistryGraceSecs ≤ secondsSince now doc.2.createdAt → s.NamedSince staleRegistryGraceSecs latest) ∧
    (staticAssetGraceSecs ≤ secondsSince now doc.2.createdAt → s.NamedSince staticAssetGraceSecs latest)
  | .deleteVersions _ _ (.row codeVersion :: _) => codeVersion ∈ s.history.map Prod.snd → ¬ s.Uploaded codeVersion
  | .pruneList activeCodeVersion => ∀ asset ∈ s.assets, asset.1 < activeCodeVersion → asset.1 ∈ s.history.map Prod.snd →
    ¬ s.NamedSince staticAssetGraceSecs (asset.1 + 1) →
      (s.versionsBetween asset.1 activeCodeVersion).length < retainedVersionsBelowActive
  | _ => True

/--
What deploys keep to. A day after its upload a version is compiled or below the one served, and a version that was
served is not uploaded again without its row.
-/
def Calm (s : System) : Action → Prop
  | .tick milliseconds => ∀ original ∈ s.originals,
    abandonedUploadTtlSecs ≤ secondsSince (s.clock + milliseconds) original.2 →
      s.docs.bundles[original.1]?.isSome ∨ original.1 < named s.docs ∨ original.1 ∈ s.compiled.map Prod.snd
  | .upload codeVersion => codeVersion ∈ s.history.map Prod.snd → s.docs.bundles[codeVersion]?.isSome
  | .advance i => ∀ pass ∈ s.passes[i]?, s.Timely pass.now pass.point
  | _ => True

instance (s : System) (now : Nat) (point : Point) : Decidable (s.Timely now point) := by
  unfold Timely
  split <;> infer_instance

instance (s : System) (action : Action) : Decidable (s.Calm action) := by
  unfold Calm
  split <;> infer_instance

end System

end Collect
