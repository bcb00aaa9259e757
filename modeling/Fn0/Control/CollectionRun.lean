/-
Collection keeps its grace periods while the ages it reads are those of the switches.

The version that the manifest names does not decrease, so a version that was named for a while stays named or gives way
to a greater one. What a pass found out when it decided is therefore still true when it deletes. An upload that is a day
old and has no row was passed over without ever being served, because a version is served only after its row was
written.
-/
import Mathlib
import Fn0.Lib.OrdMap
import Fn0.Control.Collection
import Fn0.Control.DeploymentFacts

namespace Collect

open Std (ExtTreeSet)
open Deploy

def Removal.codeVersion : Removal → Nat
  | .compiled _ codeVersion | .original codeVersion | .row codeVersion => codeVersion

namespace System

variable {s t : System} {seconds codeVersion now : Nat}

/-! ## The history -/

structure HistoryKept (s : System) : Prop where
  ordered : Ordered s.docs
  sorted : s.history.Pairwise fun later earlier => earlier.1 ≤ later.1 ∧ earlier.2 ≤ later.2
  past : ∀ event ∈ s.history, event.1 ≤ s.clock
  current : ∀ event ∈ s.history, event.2 ≤ named s.docs

/-- The version of the first event that is not after a time. -/
def versionOf (history : List (Nat × Nat)) (time : Nat) : Nat := ((history.find? (·.1 ≤ time)).map Prod.snd).getD 0

theorem versionOf_cons (event : Nat × Nat) (history : List (Nat × Nat)) (time : Nat) :
    versionOf (event :: history) time = if event.1 ≤ time then event.2 else versionOf history time := by
  unfold versionOf
  rw [List.find?_cons]
  by_cases h : event.1 ≤ time <;> simp [h]

theorem versionOf_le {history : List (Nat × Nat)} {bound : Nat} (h : ∀ event ∈ history, event.2 ≤ bound) (time : Nat) :
    versionOf history time ≤ bound := by
  unfold versionOf
  cases hfind : history.find? (·.1 ≤ time) with
  | none => exact Nat.zero_le _
  | some event => exact h event (List.mem_of_find?_eq_some hfind)

theorem versionOf_mono {history : List (Nat × Nat)}
    (h : history.Pairwise fun later earlier => earlier.1 ≤ later.1 ∧ earlier.2 ≤ later.2) {time time' : Nat}
    (hle : time ≤ time') : versionOf history time ≤ versionOf history time' := by
  induction history with
  | nil => exact le_rfl
  | cons event history ih =>
    obtain ⟨hevent, h⟩ := List.pairwise_cons.mp h
    rw [versionOf_cons, versionOf_cons]
    split
    next hearlier => rw [if_pos (hearlier.trans hle)]
    next =>
      split
      · exact versionOf_le (fun other hm => (hevent other hm).2) time
      · exact ih h

/-- What was named a while ago has been named since. -/
theorem HistoryKept.namedFor (h : s.HistoryKept) (hsince : s.NamedSince seconds codeVersion) :
    s.NamedFor seconds codeVersion :=
  ⟨hsince.1, fun _ hle _ => hsince.2.trans (versionOf_mono h.sorted hle)⟩

/-- Time goes on, and the version that is named does not decrease. -/
structure Onward (s t : System) : Prop where
  clock : s.clock ≤ t.clock
  version : named s.docs ≤ named t.docs
  history : t.history = s.history ∨ t.history = (s.clock, named t.docs) :: s.history

theorem Onward.served (h : Onward s t) (hlt : codeVersion < named s.docs) (hs : t.Served codeVersion) :
    s.Served codeVersion := by
  rcases h.history with heq | heq
  · unfold Served at hs ⊢
    rwa [heq] at hs
  · rw [Served, heq, List.map_cons, List.mem_cons] at hs
    have := h.version
    exact hs.resolve_left fun heq => by dsimp only at heq; omega

theorem Onward.versionAt_le (h : Onward s t) (hk : s.HistoryKept) (time : Nat) :
    s.versionAt time ≤ t.versionAt time := by
  change versionOf s.history time ≤ versionOf t.history time
  rcases h.history with heq | heq
  · rw [heq]
  · rw [heq, versionOf_cons]
    split
    · exact versionOf_le (fun event hm => (hk.current event hm).trans h.version) time
    · exact le_rfl

theorem Onward.namedSince (h : Onward s t) (hk : s.HistoryKept) (hkt : t.HistoryKept)
    (hsince : s.NamedSince seconds codeVersion) : t.NamedSince seconds codeVersion := by
  have hclock := h.clock
  have := hsince.1
  refine ⟨by omega, hsince.2.trans ((h.versionAt_le hk _).trans (versionOf_mono hkt.sorted (by omega)))⟩

theorem HistoryKept.write (h : s.HistoryKept) {docs : Docs} (hdocs : Ordered docs ∧ named s.docs ≤ named docs) :
    (s.write docs).HistoryKept ∧ Onward s (s.write docs) := by
  have hcurrent : ∀ event ∈ s.history, event.2 ≤ named docs := fun event hm => (h.current event hm).trans hdocs.2
  refine ⟨⟨hdocs.1, ?_, ?_, ?_⟩, le_rfl, hdocs.2, .inr rfl⟩
  · exact List.pairwise_cons.mpr ⟨fun event hm => ⟨h.past event hm, hcurrent event hm⟩, h.sorted⟩
  · exact List.forall_mem_cons.mpr ⟨le_rfl, h.past⟩
  · exact List.forall_mem_cons.mpr ⟨le_rfl, hcurrent⟩

/-! ## Passes -/

/-- Assets of the version may go: it is below the one served, and if it was served it was superseded long ago. -/
def AssetGone (s : System) (codeVersion : Nat) : Prop :=
  codeVersion < named s.docs ∧ (s.Served codeVersion → s.NamedSince staticAssetGraceSecs (codeVersion + 1))

/-- What a pass knows. -/
def Knows (s : System) : Point → Prop
  | .queryBundles _ latest _ _ => latest ≤ named s.docs
  | .deleteVersions latest assetsToo work => latest ≤ named s.docs ∧
    (assetsToo = true → s.NamedSince staticAssetGraceSecs latest) ∧
    ∀ removal ∈ work, Removal.codeVersion removal < latest ∧ s.NamedSince staleRegistryGraceSecs latest
  | .listAssets latest => latest ≤ named s.docs ∧ s.NamedSince staticAssetGraceSecs latest
  | .deleteAssets work | .pruneAssets work | .deleteUploadAssets work _ _ => ∀ asset ∈ work, s.AssetGone asset.1
  | .deleteUpload codeVersion _ _ | .listUploadAssets codeVersion _ _ => codeVersion < named s.docs ∧
      ¬ s.Served codeVersion
  | .pruneReread activeCodeVersion | .pruneList activeCodeVersion => activeCodeVersion ≤ named s.docs
  | .readPending | .readManifest _ | .listOriginals | .listCompiled _ | .checkUploads _ _ | .pruneManifest => True

theorem AssetGone.onward (h : Onward s t) (hk : s.HistoryKept) (hkt : t.HistoryKept) (hgone : s.AssetGone codeVersion) :
    t.AssetGone codeVersion :=
  ⟨hgone.1.trans_le h.version, fun hs => h.namedSince hk hkt (hgone.2 (h.served hgone.1 hs))⟩

theorem Knows.onward (h : Onward s t) (hk : s.HistoryKept) (hkt : t.HistoryKept) {point : Point} (hp : s.Knows point) :
    t.Knows point := by
  have hversion := h.version
  cases point with
  | queryBundles | pruneReread | pruneList => exact Nat.le_trans hp hversion
  | deleteVersions latest assetsToo work =>
    exact ⟨hp.1.trans hversion, fun ha => h.namedSince hk hkt (hp.2.1 ha),
      fun removal hm => ⟨(hp.2.2 removal hm).1, h.namedSince hk hkt (hp.2.2 removal hm).2⟩⟩
  | listAssets latest => exact ⟨hp.1.trans hversion, h.namedSince hk hkt hp.2⟩
  | deleteAssets | pruneAssets | deleteUploadAssets => exact fun asset hm => (hp asset hm).onward h hk hkt
  | deleteUpload | listUploadAssets => exact ⟨hp.1.trans_le hversion, fun hs => hp.2 (h.served hp.1 hs)⟩
  | readPending | readManifest | listOriginals | listCompiled | checkUploads | pruneManifest => trivial

structure Kept (s : System) : Prop where
  history : s.HistoryKept
  passes : ∀ pass ∈ s.passes, s.Knows pass.point

theorem Kept.onward (h : s.Kept) (ho : Onward s t) (hkt : t.HistoryKept)
    (hpasses : ∀ pass ∈ t.passes, pass ∈ s.passes ∨ t.Knows pass.point) : t.Kept :=
  ⟨hkt, fun pass hm => (hpasses pass hm).elim (fun hm => (h.passes pass hm).onward ho h.history hkt) id⟩

/-- The step leaves clock, manifest and history as they are. -/
theorem HistoryKept.same (h : s.HistoryKept) (hclock : t.clock = s.clock) (hentry : t.docs.entry = s.docs.entry)
    (hhistory : t.history = s.history) : t.HistoryKept ∧ Onward s t := by
  have hnamed : named t.docs = named s.docs := by rw [named, named, hentry]
  refine ⟨⟨?_, hhistory ▸ h.sorted, ?_, ?_⟩, hclock.ge, hnamed.ge, .inl hhistory⟩
  · intro entry pending he
    exact h.ordered entry pending (hentry ▸ he)
  · rw [hhistory, hclock]
    exact h.past
  · rw [hhistory, hnamed]
    exact h.current

theorem codeVersion_of_removals {pending : Option String} {latest : Nat} {docs : List (Nat × CompiledBundleDoc)}
    {removal : Removal}
    (h : removal ∈ removals pending latest docs) : Removal.codeVersion removal < latest := by
  obtain ⟨doc, -, hm⟩ := List.mem_flatMap.mp h
  split at hm
  · cases hm
  next hlt =>
    split at hm
    · cases hm
    · rcases List.mem_append.mp hm with hm | hm
      · obtain ⟨r, -, rfl⟩ := List.mem_map.mp hm
        exact Nat.lt_of_not_le hlt
      · rcases List.mem_cons.mp hm with rfl | hm
        · exact Nat.lt_of_not_le hlt
        · rw [List.mem_singleton.mp hm]
          exact Nat.lt_of_not_le hlt

/-- A pass decides on the ages it has read. -/
theorem knows_superseded {pending : Option String} {latest : Nat} {docs : List (Nat × CompiledBundleDoc)}
    (hlatest : latest ≤ named s.docs)
    (htimely : ∀ doc ∈ docs, doc.1 = latest →
      (staleRegistryGraceSecs ≤ secondsSince now doc.2.createdAt → s.NamedSince staleRegistryGraceSecs latest) ∧
      (staticAssetGraceSecs ≤ secondsSince now doc.2.createdAt → s.NamedSince staticAssetGraceSecs latest)) :
    s.Knows (superseded now pending latest docs) := by
  unfold superseded
  split
  · trivial
  next latestDoc hfind =>
    obtain ⟨hregistry, hassets⟩ := htimely latestDoc (List.mem_of_find?_eq_some hfind)
      (by simpa using List.find?_some hfind)
    refine ⟨hlatest, fun h => hassets (of_decide_eq_true h), fun removal hm => ?_⟩
    split at hm
    next hage => exact ⟨codeVersion_of_removals hm, hregistry hage⟩
    next => cases hm

/-- Of a version that is not retained, at least as many greater ones lie below the active version as are retained. -/
theorem retained_le_between {versions : List Nat} {activeCodeVersion : Nat} (hm : codeVersion ∈ versions)
    (hlt : codeVersion < activeCodeVersion) (hnot : codeVersion ∉ retainedVersions versions activeCodeVersion) :
    retainedVersionsBelowActive ≤
      (versions.dedup.filter fun other => codeVersion < other ∧ other < activeCodeVersion).length := by
  unfold retainedVersions at hnot
  have hsorted := List.pairwise_reverse.mpr
    (OrdMap.set_toList_sorted (ExtTreeSet.ofList (versions.filter (· < activeCodeVersion)) compare))
  have hmem : ∀ version, version ∈ (ExtTreeSet.ofList (versions.filter (· < activeCodeVersion))
    compare).toList.reverse ↔
      version ∈ versions ∧ version < activeCodeVersion := by
    intro version
    simp [ExtTreeSet.mem_toList, ExtTreeSet.mem_ofList]
  generalize (ExtTreeSet.ofList (versions.filter (· < activeCodeVersion)) compare).toList.reverse = below at *
  have hdrop : codeVersion ∈ below.drop retainedVersionsBelowActive := by
    have := (hmem codeVersion).mpr ⟨hm, hlt⟩
    rw [← List.take_append_drop retainedVersionsBelowActive below, List.mem_append] at this
    exact this.resolve_left hnot
  have hlength : (below.take retainedVersionsBelowActive).length = retainedVersionsBelowActive := by
    have := List.length_pos_of_mem hdrop
    rw [List.length_drop] at this
    rw [List.length_take]
    omega
  rw [← List.take_append_drop retainedVersionsBelowActive below, List.pairwise_append] at hsorted
  obtain ⟨htop, -, hgreater⟩ := hsorted
  have hsub : below.take retainedVersionsBelowActive ⊆
      versions.dedup.filter fun other => codeVersion < other ∧ other < activeCodeVersion := by
    intro other ho
    obtain ⟨hv, hl⟩ := (hmem other).mp (List.mem_of_mem_take ho)
    exact List.mem_filter.mpr ⟨List.mem_dedup.mpr hv, decide_eq_true ⟨hgreater other ho codeVersion hdrop, hl⟩⟩
  rw [← hlength]
  exact (List.subperm_of_subset (htop.imp ne_of_gt) hsub).length_le

/-! ## Rows before versions are served -/

variable {docs docs' : Docs}

theorem bundles_kept (docs : Docs) (now codeVersion : Nat) (fn0WasmtimeVersion : String) {other : Nat}
    (h : docs.bundles[other]?.isSome) :
    (bundleCompiled docs now codeVersion fn0WasmtimeVersion).1.bundles[other]?.isSome := by
  rw [(bundles_bundleCompiled ..).1]
  unfold recordCompiled
  split
  · split
    · exact h
    · rw [OrdMap.getElem?_insert]
      split
      · rfl
      · exact h
  · rw [OrdMap.getElem?_insert]
    split
    · rfl
    · exact h

theorem bundles_setActivating (docs : Docs) (codeVersion : Nat) :
    (Deploy.setActivating docs codeVersion).bundles = docs.bundles := by
  unfold Deploy.setActivating
  split
  · rfl
  · split <;> rfl

theorem bundles_setActive (docs : Docs) (codeVersion : Nat) :
    (Deploy.setActive docs codeVersion).bundles = docs.bundles := by
  unfold Deploy.setActive
  split
  · rfl
  · split <;> rfl

/-- The version that is pending has its row. -/
def PendingCompiled (docs : Docs) : Prop :=
  ∀ entry pending, docs.entry = some entry → entry.pendingCodeVersion = some pending → docs.bundles[pending]?.isSome

/-- A transaction names a new version, or makes it pending, only with its row. -/
structure CompiledFirst (docs docs' : Docs) : Prop where
  pending : PendingCompiled docs'
  named : named docs' = named docs ∨ docs'.bundles[named docs']?.isSome

theorem PendingCompiled.bundleCompiled (h : PendingCompiled docs) (now codeVersion : Nat)
    (fn0WasmtimeVersion : String) :
    CompiledFirst docs (bundleCompiled docs now codeVersion fn0WasmtimeVersion).1 := by
  rcases bundleCompiled_cases docs now codeVersion fn0WasmtimeVersion with ⟨entry, ha⟩ | hp
  · obtain ⟨doc, hdoc, -⟩ :
        Compiled (Deploy.bundleCompiled docs now codeVersion fn0WasmtimeVersion).1 codeVersion fn0WasmtimeVersion :=
      compiled_bundleCompiled.mpr (.inr ⟨rfl, rfl⟩)
    refine ⟨fun e p he hpending => ?_, ?_⟩
    · cases ha.after.symm.trans he
      cases hpending
      rw [hdoc]
      rfl
    · rw [named, named, ha.before, ha.after]
      simp only [Option.elim_some, WorkerProjectManifest.prepare]
      split
      · rw [hdoc]
        exact .inr rfl
      · exact .inl rfl
  · refine ⟨fun e p he hpending => bundles_kept docs now codeVersion fn0WasmtimeVersion
      (h e p (hp.after ▸ he) hpending), .inl ?_⟩
    rw [named, named, hp.after]

theorem PendingCompiled.setActivating (h : PendingCompiled docs) (codeVersion : Nat) :
    CompiledFirst docs (setActivating docs codeVersion) := by
  unfold Deploy.setActivating
  split
  · exact ⟨h, .inl rfl⟩
  next entry hentry =>
    split
    next hpending =>
      refine ⟨fun e p he hp => ?_, .inr (h entry codeVersion hentry hpending.1)⟩
      cases he
      cases hp
    next => exact ⟨h, .inl rfl⟩

theorem PendingCompiled.setActive (h : PendingCompiled docs) (codeVersion : Nat) :
    CompiledFirst docs (setActive docs codeVersion) := by
  unfold Deploy.setActive
  split
  · exact ⟨h, .inl rfl⟩
  next entry hentry =>
    split
    next =>
      refine ⟨fun e p he hp => ?_, .inl ?_⟩
      · cases he
        exact h entry p hentry hp
      · rw [named, named, hentry]
        rfl
    next => exact ⟨h, .inl rfl⟩

/-- The row of the version is there. -/
def HasRow (s : System) (codeVersion : Nat) : Prop := s.docs.bundles[codeVersion]?.isSome = true

/-- The compiled objects that a pass has listed or is going to list. -/
def pairs (s : System) : Point → List Nat
  | .checkUploads _ compiledPairs | .deleteUpload _ _ compiledPairs | .listUploadAssets _ _ compiledPairs
  | .deleteUploadAssets _ _ compiledPairs => compiledPairs
  | _ => s.compiled.map Prod.snd

/-- An upload that is found a day old without row and compiled object is of a version that was passed over. -/
structure Upholds (s : System) (now : Nat) (compiledPairs : List Nat) (original : Nat × Nat) : Prop where
  compiled : abandonedUploadTtlSecs ≤ secondsSince now original.2 →
    s.HasRow original.1 ∨ original.1 < named s.docs ∨ original.1 ∈ compiledPairs
  served : s.Served original.1 → s.HasRow original.1

theorem Upholds.earlier {compiledPairs : List Nat} {original : Nat × Nat} {clock : Nat}
    (h : s.Upholds clock compiledPairs original) (hle : now ≤ clock) : s.Upholds now compiledPairs original :=
  ⟨fun hage => h.compiled (hage.trans (Nat.div_le_div_right (Nat.sub_le_sub_right hle _))), h.served⟩

/-- What is kept of the uploads: a version is served only after its row was written. -/
structure Uploads (s : System) : Prop where
  past : ∀ pass ∈ s.passes, pass.now ≤ s.clock
  served : s.Served (named s.docs)
  pending : PendingCompiled s.docs
  originals : ∀ original ∈ s.originals, s.Upholds s.clock (s.compiled.map Prod.snd) original
  passes : ∀ pass ∈ s.passes, ∀ original ∈ pass.point.uploads, s.Upholds pass.now (s.pairs pass.point) original

/-! ## Steps -/

/-- A step that takes nothing away. -/
theorem graceful_of_subset (hcompiled : s.compiled ⊆ t.compiled) (hassets : s.assets ⊆ t.assets) : Graceful s t :=
  ⟨fun _ _ hm hn => absurd (hcompiled hm) hn, fun _ _ hm hn => absurd (hassets hm) hn⟩

theorem spares_of_subset (hcompiled : s.compiled ⊆ t.compiled)
    (horiginals : ∀ original ∈ s.originals, ∃ time, (original.1, time) ∈ t.originals) (hassets : s.assets ⊆ t.assets)
    (hrows : ∀ codeVersion : Nat, s.docs.bundles[codeVersion]?.isSome → t.docs.bundles[codeVersion]?.isSome) :
      Spares s t :=
  ⟨fun _ hm _ => hcompiled hm, fun original hm _ => horiginals original hm, fun _ hm _ => hassets hm,
    fun codeVersion _ h => hrows codeVersion h⟩

/-- The row of a version that was served stays while there is an upload of it, and a version is served with its row. -/
structure Follows (s t : System) : Prop where
  rows : ∀ codeVersion, s.Served codeVersion → s.Uploaded codeVersion → s.HasRow codeVersion → t.HasRow codeVersion
  served : ∀ codeVersion, t.Served codeVersion → s.Served codeVersion ∨ t.HasRow codeVersion

/-- The uploads that a pass looks at are upheld. -/
def Looks (s : System) (now : Nat) (point : Point) : Prop :=
  ∀ original ∈ point.uploads, s.Uploaded original.1 ∧ s.Upholds now (s.pairs point) original

theorem Looks.none {point : Point} (h : point.uploads = []) : s.Looks now point := by
  intro original hm
  rw [h] at hm
  cases hm

theorem Looks.mono {point point' : Point} (h : s.Looks now point) (hsub : point'.uploads ⊆ point.uploads)
    (hpairs : s.pairs point' = s.pairs point) : s.Looks now point' :=
  fun original hm => ⟨(h original (hsub hm)).1, hpairs ▸ (h original (hsub hm)).2⟩

/-- What a step of a pass leaves as it is. -/
structure Frame (s t : System) : Prop where
  clock : t.clock = s.clock
  entry : t.docs.entry = s.docs.entry
  history : t.history = s.history
  originals : t.originals ⊆ s.originals
  rows : ∀ codeVersion, s.Served codeVersion → s.Uploaded codeVersion → s.HasRow codeVersion → t.HasRow codeVersion

/-- What one step of a pass does, before the pass moves on. -/
structure Performs (s : System) (now : Nat) (result : System × Option Point) : Prop where
  frame : Frame s result.1
  looks : ∀ point, result.2 = some point → s.Looks now point
  history : result.1.HistoryKept
  onward : Onward s result.1
  passes : result.1.passes = s.passes
  next : ∀ point, result.2 = some point → result.1.Knows point
  graceful : Graceful s result.1
  spares : Spares s result.1

theorem Performs.read (h : s.HistoryKept) {next : Option Point}
    (hnext : ∀ point, next = some point → s.Knows point ∧ s.Looks now point) : Performs s now (s, next) :=
  ⟨⟨rfl, rfl, rfl, fun _ h => h, fun _ _ _ h => h⟩, fun point heq => (hnext point heq).2, h, (h.same rfl rfl rfl).2,
    rfl, fun point heq => (hnext point heq).1, graceful_of_subset (fun _ h => h) fun _ h => h,
    spares_of_subset (fun _ h => h) (fun original h => ⟨original.2, h⟩) (fun _ h => h) fun _ h => h⟩

theorem Performs.goOn (h : s.HistoryKept) {point : Point} (hnext : s.Knows point) (hlooks : s.Looks now point) :
    Performs s now (s, some point) :=
  .read h fun _ heq => by cases heq; exact ⟨hnext, hlooks⟩

theorem Performs.stop (h : s.HistoryKept) : Performs s now (s, none) := .read h nofun

theorem hasRow_remove {v v' : Nat} (hne : v ≠ v') (h : s.HasRow v') : (s.remove (.row v)).HasRow v' := by
  rw [HasRow, System.remove, Std.ExtTreeMap.getElem?_erase, if_neg (by simpa using hne)]
  exact h

theorem Frame.remove {removal : Removal} (hrow : ∀ v, removal = .row v → s.Served v → ¬ s.Uploaded v) :
    Frame s (s.remove removal) := by
  cases removal with
  | compiled => exact ⟨rfl, rfl, rfl, fun _ h => h, fun _ _ _ h => h⟩
  | original => exact ⟨rfl, rfl, rfl, fun _ => List.mem_of_mem_filter, fun _ _ _ h => h⟩
  | row v =>
    refine ⟨rfl, rfl, rfl, fun _ h => h, fun v' hs hm h => hasRow_remove ?_ h⟩
    rintro rfl
    exact hrow v rfl hs hm

theorem Performs.remove (h : s.HistoryKept) {removal : Removal} {point : Point} (hnext : s.Knows point)
    (hlooks : s.Looks now point) (hversion : removal.codeVersion < named s.docs)
    (hnamed : ∀ r v, removal = .compiled r v → s.NamedSince staleRegistryGraceSecs (v + 1))
    (hrow : ∀ v, removal = .row v → s.Served v → ¬ s.Uploaded v) : Performs s now (s.remove removal, some point) := by
  have hk : (s.remove removal).HistoryKept ∧ Onward s (s.remove removal) := by
    cases removal <;> exact h.same rfl rfl rfl
  refine ⟨.remove hrow,
    fun _ heq => by cases heq; exact hlooks, hk.1, hk.2, by cases removal <;> rfl, fun _ heq => ?_, ?_, ?_⟩
  · cases heq
    exact hnext.onward hk.2 h hk.1
  · refine ⟨fun r v hm hn => ?_, fun v name hm hn => absurd (by cases removal <;> exact hm) hn⟩
    cases removal with
    | compiled r' v' =>
      have heq : (r, v) = (r', v') := by
        by_contra hne
        exact hn (List.mem_filter.mpr ⟨hm, decide_eq_true hne⟩)
      cases heq
      exact h.namedFor (hnamed r v rfl)
    | original | row => exact absurd hm hn
  · cases removal with
    | compiled r v =>
      refine ⟨fun compiled hm hle => List.mem_filter.mpr ⟨hm, ?_⟩, fun original hm _ => ⟨original.2, hm⟩,
        fun _ hm _ => hm,
        fun _ _ hrow => hrow⟩
      rw [decide_eq_true_eq]
      rintro rfl
      exact absurd hversion (Nat.not_lt.mpr hle)
    | original v =>
      refine ⟨fun _ hm _ => hm, fun original hm hle => ⟨original.2, List.mem_filter.mpr ⟨hm, ?_⟩⟩, fun _ hm _ => hm,
        fun _ _ hrow => hrow⟩
      rw [decide_eq_true_eq]
      rintro rfl
      exact absurd hversion (Nat.not_lt.mpr hle)
    | row v =>
      refine ⟨fun _ hm _ => hm, fun original hm _ => ⟨original.2, hm⟩, fun _ hm _ => hm, fun v' hle hrow => ?_⟩
      have hne : v ≠ v' := by
        rintro rfl
        exact absurd hversion (Nat.not_lt.mpr hle)
      exact hasRow_remove hne hrow

theorem Performs.removeAsset (h : s.HistoryKept) {asset : Asset} {point : Point} (hnext : s.Knows point)
    (hlooks : s.Looks now point) (hgone : s.AssetGone asset.1) : Performs s now (s.removeAsset asset, some point) := by
  have hk : (s.removeAsset asset).HistoryKept ∧ Onward s (s.removeAsset asset) := h.same rfl rfl rfl
  refine ⟨⟨rfl, rfl, rfl, fun _ h => h, fun _ _ _ h => h⟩, fun _ heq => by cases heq; exact hlooks, hk.1, hk.2, rfl,
    fun _ heq => ?_, ⟨fun _ _ hm hn => absurd hm hn, fun v name hm hn hserved => ?_⟩,
    ⟨fun _ hm _ => hm, fun original hm _ => ⟨original.2, hm⟩, fun other hm hle => List.mem_filter.mpr ⟨hm, ?_⟩,
      fun _ _ hrow => hrow⟩⟩
  · cases heq
    exact hnext.onward hk.2 h hk.1
  · have heq : (v, name) = asset := by
      by_contra hne
      exact hn (List.mem_filter.mpr ⟨hm, decide_eq_true hne⟩)
    cases heq
    exact h.namedFor (hgone.2 hserved)
  · rw [decide_eq_true_eq]
    rintro rfl
    exact absurd hgone.1 (Nat.not_lt.mpr hle)

theorem NamedSince.mono {other : Nat} (h : s.NamedSince seconds codeVersion) (hle : other ≤ codeVersion) :
    s.NamedSince seconds other :=
  ⟨h.1, hle.trans h.2⟩

theorem named_of_entry {entry : WorkerProjectManifest} (h : s.docs.entry = some entry) :
    named s.docs = entry.codeVersion := by
  rw [named, h]
  rfl

theorem uploads_superseded {pending : Option String} {latest : Nat} {docs : List (Nat × CompiledBundleDoc)} :
    (superseded now pending latest docs).uploads = [] := by
  unfold superseded
  split <;> rfl

/-- **Steps of a pass.** Each takes away only what its pass knows it may. -/
theorem performs_perform (h : s.HistoryKept) {point : Point} (hp : s.Knows point) (htimely : s.Timely now point)
    (hlooks : s.Looks now point)
    (horiginals : ∀ original ∈ s.originals, s.Upholds now (s.compiled.map Prod.snd) original) :
    Performs s now (s.perform now point) := by
  cases point with
  | readPending => exact .goOn h trivial (.none rfl)
  | readManifest pending =>
    simp only [perform]
    split
    · exact .goOn h trivial (.none rfl)
    next entry hentry => exact .goOn h (named_of_entry hentry).ge (.none rfl)
  | queryBundles pending latest after found =>
    simp only [perform]
    split
    · exact .goOn h (knows_superseded hp htimely) (.none uploads_superseded)
    · exact .goOn h hp (.none rfl)
  | deleteVersions latest assetsToo work =>
    cases work with
    | nil =>
      cases assetsToo with
      | false => exact .goOn h trivial (.none rfl)
      | true => exact .goOn h ⟨hp.1, hp.2.1 rfl⟩ (.none rfl)
    | cons removal work =>
      obtain ⟨hlt, hnamed⟩ := hp.2.2 removal List.mem_cons_self
      refine .remove h ⟨hp.1, hp.2.1, fun r hm => hp.2.2 r (List.mem_cons_of_mem _ hm)⟩ (.none rfl) (hlt.trans_le hp.1)
        (fun r v heq => ?_) fun v heq => ?_
      · subst heq
        exact hnamed.mono hlt
      · subst heq
        exact htimely
  | listAssets latest =>
    refine .goOn h (fun asset hm => ?_) (.none rfl)
    have hlt : asset.1 < latest := by simpa using (List.mem_filter.mp hm).2
    exact ⟨hlt.trans_le hp.1, fun _ => hp.2.mono hlt⟩
  | deleteAssets work =>
    cases work with
    | nil => exact .goOn h trivial (.none rfl)
    | cons asset work =>
      exact .removeAsset h (fun a hm => hp a (List.mem_cons_of_mem _ hm)) (.none rfl) (hp asset List.mem_cons_self)
  | listOriginals => exact .goOn h trivial fun original hm => ⟨.inl ⟨original, hm, rfl⟩, horiginals original hm⟩
  | listCompiled originals => exact .goOn h trivial (hlooks.mono (List.Subset.refl _) rfl)
  | checkUploads originals compiledPairs =>
    cases originals with
    | nil => exact .stop h
    | cons original originals =>
      simp only [perform]
      split
      · exact .goOn h trivial (hlooks.mono (List.subset_cons_self ..) rfl)
      next hnot =>
        rw [not_or, not_or, Nat.not_lt] at hnot
        obtain ⟨hage, hrow, hpairs⟩ := hnot
        obtain ⟨-, hupheld⟩ := hlooks original List.mem_cons_self
        exact .goOn h ⟨((hupheld.compiled hage).resolve_left hrow).resolve_right hpairs, fun hs =>
          hrow (hupheld.served hs)⟩
          (hlooks.mono (List.subset_cons_self ..) rfl)
  | deleteUpload codeVersion originals compiledPairs =>
    exact .remove h hp (hlooks.mono (List.Subset.refl _) rfl) hp.1 nofun nofun
  | listUploadAssets codeVersion originals compiledPairs =>
    refine .goOn h (fun asset hm => ?_) (hlooks.mono (List.Subset.refl _) rfl)
    have heq : asset.1 = codeVersion := by simpa using (List.mem_filter.mp hm).2
    rw [heq]
    exact ⟨hp.1, fun hs => absurd hs hp.2⟩
  | deleteUploadAssets work originals compiledPairs =>
    cases work with
    | nil => exact .goOn h trivial (hlooks.mono (List.Subset.refl _) rfl)
    | cons asset work =>
      exact .removeAsset h (fun a hm => hp a (List.mem_cons_of_mem _ hm)) (hlooks.mono (List.Subset.refl _) rfl)
        (hp asset List.mem_cons_self)
  | pruneManifest =>
    simp only [perform]
    split
    · exact .stop h
    next entry hentry =>
      split
      · exact .goOn h (named_of_entry hentry).ge (.none rfl)
      · exact .stop h
  | pruneReread activeCodeVersion =>
    simp only [perform]
    split
    · exact .stop h
    · split
      · exact .goOn h hp (.none rfl)
      · exact .stop h
  | pruneList activeCodeVersion =>
    refine .goOn h (fun asset hm => ?_) (.none rfl)
    obtain ⟨hm, hkey⟩ := List.mem_filter.mp hm
    simp only [Bool.and_eq_true, decide_eq_true_eq, Bool.not_eq_true', List.contains_eq_mem, decide_eq_false_iff_not]
      at hkey
    obtain ⟨hlt, hnot⟩ := hkey
    refine ⟨hlt.trans_le hp, fun hs => ?_⟩
    by_contra hsince
    have hfew := htimely asset hm hlt hs hsince
    exact absurd hfew (Nat.not_lt.mpr (retained_le_between (List.mem_map_of_mem hm) hlt hnot))
  | pruneAssets work =>
    cases work with
    | nil => exact .stop h
    | cons asset work =>
      exact .removeAsset h (fun a hm => hp a (List.mem_cons_of_mem _ hm)) (.none rfl) (hp asset List.mem_cons_self)

/-- What a step keeps and what it may take away. -/
structure Fine (s t : System) : Prop where
  kept : t.Kept
  version : named s.docs ≤ named t.docs
  graceful : Graceful s t
  spares : Spares s t

theorem Kept.performs (hk : s.Kept) (hu : s.Uploads) {i : Nat} {pass : Pass} (hi : s.passes[i]? = some pass)
    (htimely : s.Timely pass.now pass.point) : Performs s pass.now (s.perform pass.now pass.point) := by
  have hm := List.mem_of_getElem? hi
  exact performs_perform hk.history (hk.passes pass hm) htimely
    (fun original ho => ⟨.inr ⟨pass, hm, original, ho, rfl⟩, hu.passes pass hm original ho⟩)
    fun original ho => (hu.originals original ho).earlier (hu.past pass hm)

theorem Kept.advance (hk : s.Kept) {i : Nat} {pass : Pass} {result : System × Option Point}
    (hp : Performs s pass.now result) : Fine s (result.1.resume i pass result.2) := by
  obtain ⟨u, next⟩ := result
  cases next with
  | some point =>
    have hsame : (u.resume i pass (some point)).HistoryKept ∧ Onward u (u.resume i pass (some point)) :=
      hp.history.same rfl rfl rfl
    refine ⟨hk.onward ⟨hp.onward.clock, hp.onward.version, hp.onward.history⟩ hsame.1 fun other ho => ?_,
      hp.onward.version, ⟨hp.graceful.compiled, hp.graceful.assets⟩,
        ⟨hp.spares.compiled, hp.spares.originals, hp.spares.assets, hp.spares.rows⟩⟩
    rcases List.mem_or_eq_of_mem_set ho with ho | rfl
    · exact .inl (hp.passes ▸ ho)
    · exact .inr ((hp.next point rfl).onward hsame.2 hp.history hsame.1)
  | none =>
    have hsame : (u.resume i pass none).HistoryKept ∧ Onward u (u.resume i pass none) := hp.history.same rfl rfl rfl
    exact ⟨hk.onward ⟨hp.onward.clock, hp.onward.version, hp.onward.history⟩ hsame.1
      fun other ho => .inl (hp.passes ▸ List.mem_of_mem_eraseIdx ho), hp.onward.version,
      ⟨hp.graceful.compiled, hp.graceful.assets⟩, ⟨hp.spares.compiled, hp.spares.originals, hp.spares.assets,
        hp.spares.rows⟩⟩

theorem Kept.write (hk : s.Kept) {docs : Docs} (hdocs : Ordered docs ∧ named s.docs ≤ named docs)
    (hrows : ∀ codeVersion : Nat, s.docs.bundles[codeVersion]?.isSome → docs.bundles[codeVersion]?.isSome) :
    Fine s (s.write docs) := by
  obtain ⟨hkt, ho⟩ := hk.history.write hdocs
  exact ⟨hk.onward ho hkt fun _ hm => .inl hm, hdocs.2, graceful_of_subset (fun _ h => h) fun _ h => h,
    spares_of_subset (fun _ h => h) (fun original h => ⟨original.2, h⟩) (fun _ h => h) hrows⟩

/-- The step leaves clock, documents and history as they are and takes nothing away. -/
theorem Kept.same (hk : s.Kept) (hclock : t.clock = s.clock) (hdocs : t.docs = s.docs)
    (hhistory : t.history = s.history)
    (hcompiled : s.compiled ⊆ t.compiled) (horiginals : ∀ original ∈ s.originals, ∃ time,
      (original.1, time) ∈ t.originals)
    (hassets : s.assets ⊆ t.assets) (hpasses : ∀ pass ∈ t.passes, pass ∈ s.passes ∨ t.Knows pass.point) : Fine s t := by
  obtain ⟨hkt, ho⟩ := hk.history.same hclock (by rw [hdocs]) hhistory
  exact ⟨hk.onward ho hkt hpasses, ho.version, graceful_of_subset hcompiled hassets,
    spares_of_subset hcompiled horiginals hassets fun _ h => by rw [hdocs]; exact h⟩

theorem Kept.step (hk : s.Kept) (hu : s.Uploads) {action : Action} (hcalm : s.Calm action)
    (h : s.step action = some t) :
    Fine s t := by
  have hrest : ∀ original ∈ s.originals, ∃ time, (original.1, time) ∈ s.originals := fun original hm => ⟨original.2, hm⟩
  cases action with
  | tick milliseconds =>
    cases h
    have hk' : HistoryKept { s with clock := s.clock + milliseconds } :=
      ⟨hk.history.ordered, hk.history.sorted, fun event hm => (hk.history.past event hm).trans (Nat.le_add_right ..),
        hk.history.current⟩
    exact ⟨hk.onward ⟨Nat.le_add_right .., le_rfl, .inl rfl⟩ hk' fun _ hm => .inl hm, le_rfl,
      graceful_of_subset (fun _ h => h) fun _ h => h, spares_of_subset (fun _ h => h) hrest (fun _ h => h) fun _ h => h⟩
  | upload codeVersion =>
    cases h
    refine hk.same rfl rfl rfl (fun _ h => h) (fun original hm => ?_) (fun _ h => h) fun _ hm => .inl hm
    by_cases heq : original.1 = codeVersion
    · exact ⟨s.clock, heq ▸ List.mem_cons_self⟩
    · exact ⟨original.2, List.mem_cons_of_mem _ (List.mem_filter.mpr ⟨hm, decide_eq_true heq⟩)⟩
  | uploadAsset codeVersion name =>
    cases h
    exact hk.same rfl rfl rfl (fun _ h => h) hrest (fun _ h => List.mem_cons_of_mem _ h) fun _ hm => .inl hm
  | compile codeVersion fn0WasmtimeVersion =>
    cases h
    exact hk.same rfl rfl rfl (fun _ h => List.mem_cons_of_mem _ h) hrest (fun _ h => h) fun _ hm => .inl hm
  | callback now codeVersion fn0WasmtimeVersion =>
    simp only [System.step] at h
    split at h <;> cases h
    exact hk.write (hk.history.ordered.bundleCompiled now codeVersion fn0WasmtimeVersion) fun _ hrow =>
      bundles_kept s.docs now codeVersion fn0WasmtimeVersion hrow
  | setActivating codeVersion =>
    cases h
    exact hk.write (hk.history.ordered.setActivating codeVersion) fun v hrow =>
      (bundles_setActivating s.docs codeVersion).symm ▸ hrow
  | setActive codeVersion =>
    cases h
    exact hk.write (hk.history.ordered.setActive codeVersion) fun v hrow =>
      (bundles_setActive s.docs codeVersion).symm ▸ hrow
  | setPending fn0WasmtimeVersion =>
    cases h
    exact hk.same rfl rfl rfl (fun _ h => h) hrest (fun _ h => h) fun _ hm => .inl hm
  | collect | prune =>
    cases h
    refine hk.same rfl rfl rfl (fun _ h => h) hrest (fun _ h => h) fun pass hm => ?_
    rcases List.mem_append.mp hm with hm | hm
    · exact .inl hm
    · rw [List.mem_singleton.mp hm]
      exact .inr trivial
  | advance i =>
    simp only [System.step] at h
    split at h <;> cases h
    next pass hi => exact hk.advance (hk.performs hu hi (hcalm pass hi))
  | fail i =>
    cases h
    exact hk.same rfl rfl rfl (fun _ h => h) hrest (fun _ h => h) fun _ hm => .inl (List.mem_of_mem_eraseIdx hm)

/-! ## Uploads along a run -/

theorem Follows.still (hdocs : t.docs = s.docs) (hhistory : t.history = s.history) : Follows s t := by
  refine ⟨fun codeVersion _ _ hrow => ?_, fun codeVersion hs => .inl ?_⟩
  · rwa [HasRow, hdocs]
  · rwa [Served, ← hhistory]

theorem Upholds.onward {compiledPairs compiledPairs' : List Nat} {original : Nat × Nat}
    (h : s.Upholds now compiledPairs original) (hf : Fine s t) (hfollows : Follows s t) (hm : s.Uploaded original.1)
    (hpairs : original.1 ∈ compiledPairs → original.1 ∈ compiledPairs' ∨ original.1 < named t.docs) :
    t.Upholds now compiledPairs' original := by
  refine ⟨fun hage => ?_, fun hs => ?_⟩
  · by_cases hlt : original.1 < named t.docs
    · exact .inr (.inl hlt)
    · have hle : named s.docs ≤ original.1 := hf.version.trans (Nat.not_lt.mp hlt)
      rcases h.compiled hage with hrow | hpassed | hlisted
      · exact .inl (hf.spares.rows original.1 hle hrow)
      · exact absurd hpassed (Nat.not_lt.mpr hle)
      · exact .inr (.inr ((hpairs hlisted).resolve_right hlt))
  · rcases hfollows.served original.1 hs with hs | hrow
    · exact hfollows.rows original.1 hs hm (h.served hs)
    · exact hrow

/-- Compiled objects go only of versions below the one served. -/
theorem Fine.compiled (hf : Fine s t) {codeVersion : Nat} (h : codeVersion ∈ s.compiled.map Prod.snd) :
    codeVersion ∈ t.compiled.map Prod.snd ∨ codeVersion < named t.docs := by
  obtain ⟨compiled, hm, rfl⟩ := List.mem_map.mp h
  by_cases hle : named s.docs ≤ compiled.2
  · exact .inl (List.mem_map_of_mem (hf.spares.compiled compiled hm hle))
  · exact .inr ((Nat.lt_of_not_le hle).trans_le hf.version)

theorem Fine.pairs (hf : Fine s t) (point : Point) {codeVersion : Nat} (h : codeVersion ∈ s.pairs point) :
    codeVersion ∈ t.pairs point ∨ codeVersion < named t.docs := by
  cases point with
  | checkUploads | deleteUpload | listUploadAssets | deleteUploadAssets => exact .inl h
  | _ => exact hf.compiled h

theorem Uploads.onward (hu : s.Uploads) (hf : Fine s t) (hfollows : Follows s t) (hclock : s.clock ≤ t.clock)
    (horiginals : ∀ original ∈ t.originals, t.clock = s.clock ∧ original ∈ s.originals ∨
      t.Upholds t.clock (t.compiled.map Prod.snd) original) (hserved : t.Served (named t.docs))
        (hpending : PendingCompiled t.docs)
    (hpasses : ∀ pass ∈ t.passes, pass ∈ s.passes ∨
      pass.now ≤ s.clock ∧ ∀ original ∈ pass.point.uploads, t.Upholds pass.now (t.pairs pass.point) original) :
    t.Uploads := by
  refine ⟨fun pass hm => ?_, hserved, hpending, fun original hm => ?_, fun pass hm original ho => ?_⟩
  · exact ((hpasses pass hm).elim (hu.past pass) And.left).trans hclock
  · rcases horiginals original hm with ⟨heq, hm⟩ | hnew
    · rw [heq]
      exact (hu.originals original hm).onward hf hfollows (.inl ⟨original, hm, rfl⟩) hf.compiled
    · exact hnew
  · rcases hpasses pass hm with hm | ⟨-, hnew⟩
    · exact (hu.passes pass hm original ho).onward hf hfollows (.inr ⟨pass, hm, original, ho, rfl⟩)
        (hf.pairs pass.point)
    · exact hnew original ho

/-- A step that leaves the documents as they are. -/
theorem Uploads.still (hu : s.Uploads) (hf : Fine s t) (hclock : s.clock ≤ t.clock)
    (horiginals : ∀ original ∈ t.originals, t.clock = s.clock ∧ original ∈ s.originals ∨
      t.Upholds t.clock (t.compiled.map Prod.snd) original) (hdocs : t.docs = s.docs) (hhistory : t.history = s.history)
    (hpasses : ∀ pass ∈ t.passes, pass ∈ s.passes ∨ pass.now ≤ s.clock ∧ pass.point.uploads = []) : t.Uploads := by
  refine hu.onward hf (.still hdocs hhistory) hclock horiginals ?_ (hdocs ▸ hu.pending) fun pass hm => ?_
  · rw [Served, hdocs, hhistory]
    exact hu.served
  · refine (hpasses pass hm).imp id fun hnew => ⟨hnew.1, fun original ho => ?_⟩
    rw [hnew.2] at ho
    cases ho

theorem Uploads.write (hu : s.Uploads) {docs : Docs} (hf : Fine s (s.write docs)) (hnamed : CompiledFirst s.docs docs)
    (hrows : ∀ codeVersion : Nat, s.docs.bundles[codeVersion]?.isSome → docs.bundles[codeVersion]?.isSome) :
    (s.write docs).Uploads := by
  refine hu.onward hf ⟨fun codeVersion _ _ hrow => hrows codeVersion hrow, fun codeVersion hs => ?_⟩ le_rfl
    (fun _ hm => .inl ⟨rfl, hm⟩) List.mem_cons_self hnamed.pending fun _ hm => .inl hm
  rcases List.mem_cons.mp hs with rfl | hs
  · rcases hnamed.named with heq | hrow
    · exact .inl (show s.Served (named docs) from heq ▸ hu.served)
    · exact .inr hrow
  · exact .inl hs

theorem Uploads.advance (hu : s.Uploads) (hk : s.Kept) {i : Nat} {pass : Pass} (hi : s.passes[i]? = some pass)
    {result : System × Option Point} (hp : Performs s pass.now result) (hf : Fine s (result.1.resume i pass result.2)) :
    (result.1.resume i pass result.2).Uploads := by
  obtain ⟨u, next⟩ := result
  have hsame : (u.resume i pass next).docs = u.docs ∧ (u.resume i pass next).history = s.history ∧
      (u.resume i pass next).clock = s.clock ∧ (u.resume i pass next).originals = u.originals := by
    cases next <;> exact ⟨rfl, hp.frame.history, hp.frame.clock, rfl⟩
  obtain ⟨hdocs, hhistory, hclock, horiginals⟩ := hsame
  have hentry : (u.resume i pass next).docs.entry = s.docs.entry := hdocs ▸ hp.frame.entry
  have hfollows : Follows s (u.resume i pass next) := by
    refine ⟨fun codeVersion hs hm hrow => ?_, fun codeVersion hs => .inl ?_⟩
    · rw [HasRow, hdocs]
      exact hp.frame.rows codeVersion hs hm hrow
    · rwa [Served, ← hhistory]
  refine hu.onward hf hfollows hclock.ge (fun _ hm => .inl ⟨hclock, hp.frame.originals (horiginals ▸ hm)⟩) ?_ ?_
    fun other hm => ?_
  · rw [Served, hhistory, named, hentry]
    exact hu.served
  · intro entry pending he hpending
    refine hf.spares.rows pending ?_ (hu.pending entry pending (hentry ▸ he) hpending)
    rw [named_of_entry (hentry ▸ he)]
    exact hk.history.ordered entry pending (hentry ▸ he) hpending
  · cases next with
    | none => exact .inl (hp.passes ▸ List.mem_of_mem_eraseIdx hm)
    | some point =>
      rcases List.mem_or_eq_of_mem_set hm with hm | rfl
      · exact .inl (hp.passes ▸ hm)
      · refine .inr ⟨hu.past pass (List.mem_of_getElem? hi), fun original ho => ?_⟩
        obtain ⟨huploaded, hupheld⟩ := hp.looks point rfl original ho
        exact hupheld.onward hf hfollows huploaded (hf.pairs point)

theorem Uploads.step (hu : s.Uploads) (hk : s.Kept) {action : Action} (hcalm : s.Calm action)
    (h : s.step action = some t) :
    t.Uploads := by
  have hf := hk.step hu hcalm h
  cases action with
  | tick milliseconds =>
    cases h
    refine hu.still hf (Nat.le_add_right ..) (fun original hm => .inr ?_) rfl rfl fun _ hm => .inl hm
    exact ⟨hcalm original hm, (hu.originals original hm).served⟩
  | upload codeVersion =>
    cases h
    refine hu.still hf le_rfl (fun original hm => ?_) rfl rfl fun _ hm => .inl hm
    rcases List.mem_cons.mp hm with rfl | hm
    · refine .inr ⟨fun hage => ?_, hcalm⟩
      rw [secondsSince, Nat.sub_self] at hage
      exact absurd hage (by decide)
    · exact .inl ⟨rfl, List.mem_of_mem_filter hm⟩
  | uploadAsset | compile | setPending =>
    cases h
    exact hu.still hf le_rfl (fun _ hm => .inl ⟨rfl, hm⟩) rfl rfl fun _ hm => .inl hm
  | callback now codeVersion fn0WasmtimeVersion =>
    simp only [System.step] at h
    split at h <;> cases h
    exact hu.write hf (hu.pending.bundleCompiled ..) fun _ hrow => bundles_kept s.docs now codeVersion
      fn0WasmtimeVersion hrow
  | setActivating codeVersion =>
    cases h
    exact hu.write hf (hu.pending.setActivating codeVersion) fun v hrow =>
      (bundles_setActivating s.docs codeVersion).symm ▸ hrow
  | setActive codeVersion =>
    cases h
    exact hu.write hf (hu.pending.setActive codeVersion) fun v hrow =>
      (bundles_setActive s.docs codeVersion).symm ▸ hrow
  | collect | prune =>
    cases h
    refine hu.still hf le_rfl (fun _ hm => .inl ⟨rfl, hm⟩) rfl rfl fun pass hm => ?_
    rcases List.mem_append.mp hm with hm | hm
    · exact .inl hm
    · rw [List.mem_singleton.mp hm]
      exact .inr ⟨le_rfl, rfl⟩
  | advance i =>
    simp only [System.step] at h
    split at h <;> cases h
    next pass hi => exact hu.advance hk hi (hk.performs hu hi (hcalm pass hi)) hf
  | fail i =>
    cases h
    exact hu.still hf le_rfl (fun _ hm => .inl ⟨rfl, hm⟩) rfl rfl fun _ hm => .inl (List.mem_of_mem_eraseIdx hm)

theorem kept_start (domain : String) (activeFn0WasmtimeVersion : Option String) :
    (start domain activeFn0WasmtimeVersion).Kept := by
  refine ⟨⟨?_, List.pairwise_singleton .., ?_, ?_⟩, nofun⟩
  · rintro entry pending ⟨rfl⟩ hp
    cases hp
  · exact List.forall_mem_singleton.mpr le_rfl
  · exact List.forall_mem_singleton.mpr le_rfl

theorem uploads_start (domain : String) (activeFn0WasmtimeVersion : Option String) :
    (start domain activeFn0WasmtimeVersion).Uploads := by
  refine ⟨nofun, List.mem_singleton_self _, ?_, nofun, nofun⟩
  rintro entry pending ⟨rfl⟩ hp
  cases hp

/--
**Grace periods.** In every run in which passes come late enough after a switch, each step keeps them and touches
neither the served version nor a greater one.
-/
theorem graceful_of_timely (domain : String) (activeFn0WasmtimeVersion : Option String)
    (h : Steps.Reach step Calm (start domain activeFn0WasmtimeVersion) s) {action : Action} (hcalm : s.Calm action)
    (hstep : s.step action = some t) : Graceful s t ∧ Spares s t := by
  have hk : s.Kept ∧ s.Uploads := by
    refine Steps.Reach.invariant (P := fun s => s.Kept ∧ s.Uploads) h
      ⟨kept_start domain activeFn0WasmtimeVersion, uploads_start domain activeFn0WasmtimeVersion⟩ ?_
    intro s action t hk hcalm hstep
    exact ⟨(hk.1.step hk.2 hcalm hstep).kept, hk.2.step hk.1 hcalm hstep⟩
  have hf := hk.1.step hk.2 hcalm hstep
  exact ⟨hf.graceful, hf.spares⟩

/-- A version is uploaded, compiled and activated at once. -/
def deploy (now codeVersion : Nat) : List Action :=
  [.upload codeVersion, .uploadAsset codeVersion "app.js", .compile codeVersion "r1", .callback now codeVersion "r1",
    .setActivating codeVersion, .setActive codeVersion]

def day : Nat := 24 * 60 * 60 * 1000

/--
A day after two deploys there are two more, and the assets of version 1 are pruned. A pass two minutes later deletes
what was compiled of version 1.
-/
theorem superseded_version_collected : ∃ s t action, s.step action = some t ∧
    s.assets = [(4, "app.js"), (3, "app.js"), (2, "app.js")] ∧ ("r1", 1) ∈ s.compiled ∧ ("r1", 1) ∉ t.compiled ∧
    Graceful s t ∧ Spares s t := by
  have hrun : ∃ s, Steps.Reach step Calm (start "a.example" (some "r1")) s ∧
      decide (s.Calm (.advance 0) ∧ s.assets = [(4, "app.js"), (3, "app.js"), (2, "app.js")] ∧ ("r1", 1) ∈ s.compiled ∧
        (s.step (.advance 0)).map (fun t => decide (("r1", 1) ∈ t.compiled)) = some false) = true :=
    Steps.exists_reach (deploy 0 1 ++ deploy 0 2 ++ [.tick day] ++ deploy day 3 ++ deploy day 4 ++
      [.prune, .advance 0, .advance 0, .advance 0, .advance 0, .advance 0,
        .tick 120000, .collect, .advance 0, .advance 0, .advance 0]) (by decide +kernel)
  obtain ⟨s, hreach, hs⟩ := hrun
  simp only [decide_eq_true_eq] at hs
  obtain ⟨hcalm, hassets, hbefore, hafter⟩ := hs
  obtain ⟨t, hstep, ht⟩ := Option.map_eq_some_iff.mp hafter
  exact ⟨s, t, _, hstep, hassets, hbefore, of_decide_eq_false ht,
    graceful_of_timely "a.example" (some "r1") hreach hcalm hstep⟩

/--
Version 2 is compiled while version 1 is served, and activated 100 seconds later. One second after that a pass finds a
row of version 2 that is older than the grace period and deletes what was compiled of version 1.
-/
theorem compiled_deleted_after_late_activation : ∃ s action t, Steps.Reach step (fun _ _ => True)
    (start "a.example" (some "r1")) s ∧
    s.step action = some t ∧ ∃ codeVersion, ("r1", codeVersion) ∈ s.compiled ∧ ("r1", codeVersion) ∉ t.compiled ∧
      ¬ s.NamedFor staleRegistryGraceSecs (codeVersion + 1) := by
  have hrun : ∃ s, Steps.Reach step (fun _ _ => True) (start "a.example" (some "r1")) s ∧
      decide (("r1", 1) ∈ s.compiled ∧ (s.step (.advance 0)).map (fun t => decide (("r1", 1) ∈ t.compiled)) =
        some false ∧
        s.versionAt (s.clock - staleRegistryGraceSecs * 1000) < 2) = true :=
    Steps.exists_reach (deploy 0 1 ++
      [.compile 2 "r1", .callback 0 2 "r1", .tick 100000, .setActivating 2, .setActive 2, .tick 1000,
        .collect, .advance 0,
        .advance 0, .advance 0]) (by decide +kernel)
  obtain ⟨s, hreach, hs⟩ := hrun
  simp only [decide_eq_true_eq] at hs
  obtain ⟨hbefore, hafter, hversion⟩ := hs
  obtain ⟨t, hstep, ht⟩ := Option.map_eq_some_iff.mp hafter
  refine ⟨s, _, t, hreach, hstep, 1, hbefore, of_decide_eq_false ht, fun hnamed => ?_⟩
  have := hnamed.2 _ le_rfl (Nat.sub_le ..)
  omega

end System

end Collect
