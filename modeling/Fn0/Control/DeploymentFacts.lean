/-
The transactions only move the documents forward.

The version that the manifest names does not decrease. A version that was compiled for the active runtime and is no
longer pending is never pending again, and one that is also no longer activating stays so.
-/
import Mathlib
import Fn0.Lib.Steps
import Fn0.Control.Deployment

namespace Deploy

def NotPending (docs : Docs) (codeVersion : Nat) : Prop :=
  ∀ entry, docs.entry = some entry → entry.pendingCodeVersion ≠ some codeVersion

/-- The version is neither pending nor activating. -/
def Done (docs : Docs) (codeVersion : Nat) : Prop :=
  ∀ entry, docs.entry = some entry → entry.pendingCodeVersion ≠ some codeVersion ∧
    ¬ (entry.codeVersion = codeVersion ∧ entry.staticCacheState = .activating)

/-- The version that the entry is on its way to. -/
def target (entry : WorkerProjectManifest) : Nat := entry.pendingCodeVersion.getD entry.codeVersion

structure EntryKept (docs : Docs) (entry : WorkerProjectManifest) : Prop where
  pending : ∀ pending, entry.pendingCodeVersion = some pending →
    entry.staticCacheState = .prePurge ∧ entry.codeVersion ≤ pending
  prePurge : entry.staticCacheState = .prePurge → ∃ pending, entry.pendingCodeVersion = some pending
  greatest : ∀ codeVersion, Runs docs codeVersion → codeVersion ≤ target entry
  runs : Runs docs (target entry) ∨ entry.codeVersion = 0 ∧ entry.pendingCodeVersion = none

/-- What a transaction does to the documents. -/
structure Forward (docs docs' : Docs) : Prop where
  active : docs'.activeFn0WasmtimeVersion = docs.activeFn0WasmtimeVersion
  compiled : ∀ codeVersion fn0WasmtimeVersion, Compiled docs codeVersion fn0WasmtimeVersion →
    Compiled docs' codeVersion fn0WasmtimeVersion
  notPending : ∀ codeVersion, Runs docs codeVersion → NotPending docs codeVersion → NotPending docs' codeVersion
  done : ∀ codeVersion, Runs docs codeVersion → Done docs codeVersion → Done docs' codeVersion
  entry : ∀ entry, docs.entry = some entry → EntryKept docs entry → ∃ entry', docs'.entry = some entry' ∧
    entry'.domain = entry.domain ∧ entry.codeVersion ≤ entry'.codeVersion ∧ EntryKept docs' entry'

variable {docs docs' : Docs} {entry : WorkerProjectManifest} {codeVersion other now : Nat}
  {fn0WasmtimeVersion runtime : String}

theorem Forward.runs (h : Forward docs docs') (hr : Runs docs codeVersion) : Runs docs' codeVersion := by
  obtain ⟨active, hactive, hc⟩ := hr
  exact ⟨active, h.active.trans hactive, h.compiled _ _ hc⟩

theorem Forward.refl (docs : Docs) : Forward docs docs :=
  ⟨rfl, fun _ _ h => h, fun _ _ h => h, fun _ _ h => h, fun entry h hk => ⟨entry, h, rfl, le_rfl, hk⟩⟩

theorem compiled_record (now : Nat) :
    (∃ doc, (recordCompiled docs.bundles now codeVersion fn0WasmtimeVersion).1[other]? = some doc ∧
      runtime ∈ doc.fn0WasmtimeVersions) ↔
      Compiled docs other runtime ∨ other = codeVersion ∧ runtime = fn0WasmtimeVersion := by
  unfold recordCompiled Compiled
  split
  next doc hdoc =>
    split
    next hmem =>
      refine ⟨.inl, ?_⟩
      rintro (h | ⟨rfl, rfl⟩)
      · exact h
      · exact ⟨doc, hdoc, List.contains_iff_mem.mp hmem⟩
    next =>
      simp only [OrdMap.getElem?_insert]
      by_cases heq : codeVersion = other
      · subst heq
        simp [hdoc]
      · simp [heq, Ne.symm heq]
  next hdoc =>
    simp only [OrdMap.getElem?_insert]
    by_cases heq : codeVersion = other
    · subst heq
      simp [hdoc]
    · simp [heq, Ne.symm heq]

theorem not_newly_compiled (h : (recordCompiled docs.bundles now codeVersion fn0WasmtimeVersion).2 = false) :
    Compiled docs codeVersion fn0WasmtimeVersion := by
  unfold recordCompiled at h
  split at h
  next doc hdoc =>
    split at h
    next hmem => exact ⟨doc, hdoc, List.contains_iff_mem.mp hmem⟩
    next => cases h
  next => cases h

theorem newly_compiled (h : (recordCompiled docs.bundles now codeVersion fn0WasmtimeVersion).2 = true) :
    ¬ Compiled docs codeVersion fn0WasmtimeVersion := by
  rintro ⟨doc, hdoc, hmem⟩
  simp only [recordCompiled, hdoc, List.contains_iff_mem.mpr hmem, if_true, Bool.false_eq_true] at h

/-- What the transaction of a callback does to the entry: it accepts the version, or leaves the entry as it is. -/
structure Accepted (docs : Docs) (codeVersion : Nat) (fn0WasmtimeVersion : String) (entry : WorkerProjectManifest)
    (result : Docs × Bool) : Prop where
  before : docs.entry = some entry
  active : docs.activeFn0WasmtimeVersion = some fn0WasmtimeVersion
  fresh : ¬ Compiled docs codeVersion fn0WasmtimeVersion
  accepts : entry.accepts codeVersion = true
  after : result.1.entry = some (entry.prepare codeVersion)
  enqueue : result.2 = true

structure Passed (docs : Docs) (codeVersion : Nat) (fn0WasmtimeVersion : String) (result : Docs × Bool) : Prop where
  after : result.1.entry = docs.entry
  refused : docs.activeFn0WasmtimeVersion = some fn0WasmtimeVersion → ¬ Compiled docs codeVersion fn0WasmtimeVersion →
    ∀ entry, docs.entry = some entry → entry.accepts codeVersion = false
  enqueue : result.2 = true → ∃ entry, docs.entry = some entry ∧ entry.awaits codeVersion = true
  skip : result.2 = false → ∀ entry, docs.entry = some entry → entry.awaits codeVersion = false

theorem bundleCompiled_cases (docs : Docs) (now codeVersion : Nat) (fn0WasmtimeVersion : String) :
    (∃ entry, Accepted docs codeVersion fn0WasmtimeVersion entry
      (bundleCompiled docs now codeVersion fn0WasmtimeVersion)) ∨
      Passed docs codeVersion fn0WasmtimeVersion (bundleCompiled docs now codeVersion fn0WasmtimeVersion) := by
  simp only [bundleCompiled]
  split
  next hnew =>
    rw [Bool.and_eq_true, beq_iff_eq] at hnew
    split
    next hentry => exact .inr ⟨rfl, fun _ _ => by simp [hentry], nofun, fun _ => by simp [hentry]⟩
    next entry hentry =>
      split
      next hac => exact .inl ⟨entry, hentry, hnew.2, newly_compiled hnew.1, hac, rfl, rfl⟩
      next hac =>
        refine .inr ⟨rfl, fun _ _ other hother => ?_, fun h => ⟨entry, hentry, h⟩, fun h other hother => ?_⟩
        all_goals
          cases hentry.symm.trans hother
        · simpa using hac
        · exact h
  next hold =>
    rw [Bool.and_eq_true, beq_iff_eq, not_and] at hold
    refine .inr ⟨rfl, fun hactive hfresh => ?_, fun h => ?_, fun h entry hentry => ?_⟩
    · cases hrec : (recordCompiled docs.bundles now codeVersion fn0WasmtimeVersion).2 with
      | true => exact absurd hactive (hold hrec)
      | false => exact absurd (not_newly_compiled hrec) hfresh
    · exact Steps.exists_of_any h
    · simp only [hentry, Option.any_some] at h
      exact h

theorem bundles_bundleCompiled (docs : Docs) (now codeVersion : Nat) (fn0WasmtimeVersion : String) :
    (bundleCompiled docs now codeVersion fn0WasmtimeVersion).1.bundles =
        (recordCompiled docs.bundles now codeVersion fn0WasmtimeVersion).1 ∧
      (bundleCompiled docs now codeVersion fn0WasmtimeVersion).1.activeFn0WasmtimeVersion =
        docs.activeFn0WasmtimeVersion := by
  simp only [bundleCompiled]
  split
  · split
    · exact ⟨rfl, rfl⟩
    · split <;> exact ⟨rfl, rfl⟩
  · exact ⟨rfl, rfl⟩

theorem compiled_bundleCompiled :
    Compiled (bundleCompiled docs now codeVersion fn0WasmtimeVersion).1 other runtime ↔
      Compiled docs other runtime ∨ other = codeVersion ∧ runtime = fn0WasmtimeVersion := by
  rw [← compiled_record now, Compiled, (bundles_bundleCompiled ..).1]

theorem runs_bundleCompiled :
    Runs (bundleCompiled docs now codeVersion fn0WasmtimeVersion).1 other ↔
      Runs docs other ∨ other = codeVersion ∧ docs.activeFn0WasmtimeVersion = some fn0WasmtimeVersion := by
  simp only [Runs, (bundles_bundleCompiled ..).2, compiled_bundleCompiled]
  constructor
  · rintro ⟨active, hactive, h | ⟨rfl, rfl⟩⟩
    · exact .inl ⟨active, hactive, h⟩
    · exact .inr ⟨rfl, hactive⟩
  · rintro (⟨active, hactive, h⟩ | ⟨rfl, hactive⟩)
    · exact ⟨active, hactive, .inl h⟩
    · exact ⟨_, hactive, .inr ⟨rfl, rfl⟩⟩

theorem accepts_iff : entry.accepts codeVersion = true ↔
    (entry.codeVersion < codeVersion ∨ codeVersion = entry.codeVersion ∧ entry.pendingCodeVersion = none) ∧
      ∀ pending, entry.pendingCodeVersion = some pending → pending < codeVersion := by
  unfold WorkerProjectManifest.accepts
  cases entry.pendingCodeVersion <;> simp

/-- A version that is refused is not beyond the one that the entry is on its way to. -/
theorem le_target_of_refused (hk : EntryKept docs entry) (h : entry.accepts codeVersion = false) :
    codeVersion ≤ target entry ∧ ¬ (entry.codeVersion = 0 ∧ entry.pendingCodeVersion = none) := by
  have hnot := mt accepts_iff.mpr (by rw [h]; nofun)
  unfold target
  cases hp : entry.pendingCodeVersion with
  | none =>
    simp only [hp, reduceCtorEq, and_true, false_implies, implies_true] at hnot ⊢
    simp only [Option.getD_none]
    omega
  | some pending =>
    have hle := (hk.pending pending hp).2
    simp only [hp, reduceCtorEq, and_false, or_false, Option.some.injEq, forall_eq'] at hnot ⊢
    simp only [Option.getD_some, not_false_eq_true, and_true]
    omega

/-- The entry after an accepted callback. -/
theorem EntryKept.accept (hk : EntryKept docs entry)
    (h : Accepted docs codeVersion fn0WasmtimeVersion entry (bundleCompiled docs now codeVersion fn0WasmtimeVersion)) :
    EntryKept (bundleCompiled docs now codeVersion fn0WasmtimeVersion).1 (entry.prepare codeVersion) := by
  obtain ⟨hnew, hpending⟩ := accepts_iff.mp h.accepts
  refine ⟨fun pending hp => ?_, fun _ => ⟨codeVersion, rfl⟩, fun v hv => ?_, .inl ?_⟩
  · cases hp
    refine ⟨rfl, ?_⟩
    simp only [WorkerProjectManifest.prepare]
    split <;> omega
  · change v ≤ codeVersion
    rcases runs_bundleCompiled.mp hv with hv | ⟨rfl, -⟩
    · have hle := hk.greatest v hv
      unfold target at hle
      cases hp : entry.pendingCodeVersion with
      | none => simp only [hp, Option.getD_none] at hle; omega
      | some pending =>
        have := hpending pending hp
        simp only [hp, Option.getD_some] at hle
        omega
    · exact le_rfl
  · exact runs_bundleCompiled.mpr (.inr ⟨rfl, h.active⟩)

theorem EntryKept.pass (hk : EntryKept docs entry) (hentry : docs.entry = some entry)
    (h : Passed docs codeVersion fn0WasmtimeVersion (bundleCompiled docs now codeVersion fn0WasmtimeVersion)) :
    EntryKept (bundleCompiled docs now codeVersion fn0WasmtimeVersion).1 entry := by
  refine ⟨hk.pending, hk.prePurge, fun v hv => ?_, hk.runs.imp_left fun hr => runs_bundleCompiled.mpr (.inl hr)⟩
  rcases runs_bundleCompiled.mp hv with hv | ⟨rfl, hactive⟩
  · exact hk.greatest v hv
  · by_cases hc : Compiled docs v fn0WasmtimeVersion
    · exact hk.greatest v ⟨_, hactive, hc⟩
    · exact (le_target_of_refused hk (h.refused hactive hc entry hentry)).1

theorem forward_bundleCompiled (docs : Docs) (now codeVersion : Nat) (fn0WasmtimeVersion : String) :
    Forward docs (bundleCompiled docs now codeVersion fn0WasmtimeVersion).1 := by
  have hcompiled : ∀ v r, Compiled docs v r → Compiled (bundleCompiled docs now codeVersion fn0WasmtimeVersion).1 v r :=
    fun v r hc => compiled_bundleCompiled.mpr (.inl hc)
  rcases bundleCompiled_cases docs now codeVersion fn0WasmtimeVersion with ⟨entry, h⟩ | h
  · refine ⟨(bundles_bundleCompiled ..).2, hcompiled, fun v hv _ e he => ?_, fun v hv _ e he => ?_, fun e he hk => ?_⟩
    -- the version was not compiled for the active runtime before
    · rw [h.after] at he
      cases he
      rintro ⟨rfl⟩
      obtain ⟨active, hactive, hc⟩ := hv
      cases h.active.symm.trans hactive
      exact h.fresh hc
    · rw [h.after] at he
      cases he
      refine ⟨?_, fun hboth => nomatch hboth.2⟩
      rintro ⟨rfl⟩
      obtain ⟨active, hactive, hc⟩ := hv
      cases h.active.symm.trans hactive
      exact h.fresh hc
    · cases h.before.symm.trans he
      refine ⟨_, h.after, rfl, ?_, hk.accept h⟩
      simp only [WorkerProjectManifest.prepare]
      split <;> omega
  · refine ⟨(bundles_bundleCompiled ..).2, hcompiled, fun v _ hn e he => hn e (h.after ▸ he),
      fun v _ hd e he => hd e (h.after ▸ he), fun e he hk => ⟨e, h.after.trans he, rfl, le_rfl, hk.pass he h⟩⟩

theorem EntryKept.of_bundles (hk : EntryKept docs entry) {entry' : WorkerProjectManifest}
    (hactive : docs'.activeFn0WasmtimeVersion = docs.activeFn0WasmtimeVersion) (hbundles : docs'.bundles = docs.bundles)
    (htarget : target entry' = target entry)
    (hpending : ∀ pending, entry'.pendingCodeVersion = some pending →
      entry'.staticCacheState = .prePurge ∧ entry'.codeVersion ≤ pending)
    (hprePurge : entry'.staticCacheState = .prePurge → ∃ pending, entry'.pendingCodeVersion = some pending)
    (hfirst : entry.codeVersion = 0 ∧ entry.pendingCodeVersion = none →
      entry'.codeVersion = 0 ∧ entry'.pendingCodeVersion = none) : EntryKept docs' entry' := by
  have hruns : ∀ v, Runs docs' v ↔ Runs docs v := fun v => by simp only [Runs, Compiled, hactive, hbundles]
  exact ⟨hpending, hprePurge, fun v hv => htarget ▸ hk.greatest v ((hruns v).mp hv),
    hk.runs.imp (fun hr => (hruns _).mpr (htarget ▸ hr)) hfirst⟩

theorem forward_setActivating (docs : Docs) (codeVersion : Nat) : Forward docs (setActivating docs codeVersion) := by
  unfold setActivating
  split
  · exact .refl docs
  next entry hentry =>
    split
    next hpending =>
      refine ⟨rfl, fun _ _ h => h, fun v _ _ e he => ?_, fun v _ hd e he => ?_, fun e he hk => ?_⟩
      · cases he
        nofun
      · cases he
        refine ⟨nofun, fun hboth => (hd entry hentry).1 ?_⟩
        cases hboth.1
        exact hpending.1
      · cases hentry.symm.trans he
        refine ⟨_, rfl, rfl, (hk.pending _ hpending.1).2, hk.of_bundles rfl rfl ?_ nofun nofun fun hfirst => ?_⟩
        · simp only [target, hpending.1, Option.getD_none, Option.getD_some]
        · cases hfirst.2.symm.trans hpending.1
    next => exact .refl docs

theorem forward_setActive (docs : Docs) (codeVersion : Nat) : Forward docs (setActive docs codeVersion) := by
  unfold setActive
  split
  · exact .refl docs
  next entry hentry =>
    split
    next hactivating =>
      refine ⟨rfl, fun _ _ h => h, fun v _ hn e he => ?_, fun v _ hd e he => ?_, fun e he hk => ?_⟩
      · cases he
        exact hn entry hentry
      · cases he
        exact ⟨(hd entry hentry).1, fun hboth => nomatch hboth.2⟩
      · cases hentry.symm.trans he
        refine ⟨_, rfl, rfl, le_rfl, hk.of_bundles rfl rfl rfl (fun pending hp => ?_) nofun fun hfirst => hfirst⟩
        cases hactivating.2.symm.trans (hk.pending pending hp).1
    next => exact .refl docs

theorem Forward.named_le (h : Forward docs docs') (hentry : docs.entry = some entry) (hk : EntryKept docs entry) :
    named docs ≤ named docs' := by
  obtain ⟨entry', hentry', -, hle, -⟩ := h.entry entry hentry hk
  rw [named, named, hentry, hentry']
  exact hle

theorem awaits_iff : entry.awaits codeVersion = true ↔
    entry.pendingCodeVersion = some codeVersion ∧ entry.staticCacheState ≠ .active := by
  simp [WorkerProjectManifest.awaits]

/-! ## The version named -/

/-- The pending version is not below the one that is named. -/
def Ordered (docs : Docs) : Prop :=
  ∀ entry pending, docs.entry = some entry → entry.pendingCodeVersion = some pending → entry.codeVersion ≤ pending

theorem Ordered.bundleCompiled (h : Ordered docs) (now codeVersion : Nat) (fn0WasmtimeVersion : String) :
    Ordered (bundleCompiled docs now codeVersion fn0WasmtimeVersion).1 ∧
      named docs ≤ named (bundleCompiled docs now codeVersion fn0WasmtimeVersion).1 := by
  rcases bundleCompiled_cases docs now codeVersion fn0WasmtimeVersion with ⟨entry, ha⟩ | hp
  · obtain ⟨hnew, -⟩ := accepts_iff.mp ha.accepts
    have hle : (entry.prepare codeVersion).codeVersion ≤ codeVersion ∧
        entry.codeVersion ≤ (entry.prepare codeVersion).codeVersion := by
      simp only [WorkerProjectManifest.prepare]
      split <;> omega
    refine ⟨fun e p he hpending => ?_, ?_⟩
    · cases ha.after.symm.trans he
      cases hpending
      exact hle.1
    · rw [named, named, ha.before, ha.after]
      exact hle.2
  · exact ⟨fun e p he => h e p (hp.after ▸ he), by rw [named, named, hp.after]⟩

theorem Ordered.setActivating (h : Ordered docs) (codeVersion : Nat) :
    Ordered (setActivating docs codeVersion) ∧ named docs ≤ named (setActivating docs codeVersion) := by
  unfold Deploy.setActivating
  split
  · exact ⟨h, le_rfl⟩
  next entry hentry =>
    split
    next hpending =>
      refine ⟨fun e p he hp => ?_, ?_⟩
      · cases he
        cases hp
      · rw [named, hentry]
        exact h entry codeVersion hentry hpending.1
    next => exact ⟨h, le_rfl⟩

theorem Ordered.setActive (h : Ordered docs) (codeVersion : Nat) :
    Ordered (setActive docs codeVersion) ∧ named docs ≤ named (setActive docs codeVersion) := by
  unfold Deploy.setActive
  split
  · exact ⟨h, le_rfl⟩
  next entry hentry =>
    split
    next =>
      refine ⟨fun e p he hp => ?_, ?_⟩
      · cases he
        exact h entry p hentry hp
      · rw [named, hentry]
        exact le_rfl
    next => exact ⟨h, le_rfl⟩

end Deploy
