/-
The catalog as a chain of commits.

The state of a catalog is the fold of its commits. What the handles keep, at each call and whatever the others do, is
stated once as a protocol: every object is the commit or the snapshot of its generation of one chain, and the chain
only grows. From it follows what a load returns and what a commit that is answered with success has done.
-/
import Mathlib
import Fn0.Lib.Eff
import Fn0.Signy.Catalog

namespace Signy

open Std (ExtTreeMap ExtTreeSet)

/-! ## Applying one commit -/

theorem refuse_eq_ok {condition : Prop} [Decidable condition] {error : CatalogError} {u : Unit} :
    refuse condition error = .ok u ↔ ¬ condition := by
  unfold refuse
  split <;> simp_all

theorem checkedSucc_eq_ok {n m : Nat} {error : CatalogError} :
    checkedSucc n error = .ok m ↔ n + 1 < 2 ^ 64 ∧ m = n + 1 := by
  unfold checkedSucc
  split <;> simp_all [eq_comm]

/-- What holds when a commit applies to a state. -/
structure Applies (state : CatalogState) (commit : CatalogCommit) (next : CatalogState) : Prop where
  generation : commit.generation = state.generation + 1
  bound : state.generation + 1 < 2 ^ 64
  epoch : checkCommitEpoch state commit = .ok ()
  logs : applyLogParts state.manifest.parts commit.mutation.logAdded commit.mutation.logRemoved =
    .ok next.manifest.parts
  traces : applyTraceParts state.traceManifest.parts commit.mutation.traceAdded commit.mutation.traceRemoved =
    .ok next.traceManifest.parts
  metrics : applyMetricParts state.metricManifest.parts commit.mutation.metricAdded commit.mutation.metricRemoved =
    .ok next.metricManifest.parts
  validLogs : validateManifest next.manifest = .ok ()
  validTraces : validateTraceManifest next.traceManifest = .ok ()
  validMetrics : validateMetricManifest next.metricManifest = .ok ()
  next_generation : next.generation = commit.generation
  next_epoch : next.writerEpoch = commit.mutation.writerEpoch
  next_digest : next.lastDigest = commit.digest
  next_transaction : next.lastTransactionId = commit.mutation.transactionId

theorem applies_of_ok {state next : CatalogState} {commit : CatalogCommit}
    (h : applyCatalogMutation state commit = .ok next) : Applies state commit next := by
  simp only [applyCatalogMutation, Except.bind_eq_ok, refuse_eq_ok, checkedSucc_eq_ok, not_not] at h
  obtain ⟨⟨⟩, -, ⟨⟩, -, g, ⟨hbound, rfl⟩, ⟨⟩, hg, ⟨⟩, he, logs, hl, traces, ht, metrics, hm, ⟨⟩, vl,
    ⟨⟩, vt, ⟨⟩, vm, h⟩ := h
  cases h
  exact ⟨hg, hbound, he, hl, ht, hm, vl, vt, vm, rfl, rfl, rfl, rfl⟩

variable {sha : Sha} {state next : CatalogState} {commit : CatalogCommit} {chain chain' : List CatalogCommit}

theorem Applies.epoch_le (h : Applies state commit next) : state.writerEpoch ≤ next.writerEpoch := by
  have he := h.epoch
  have hn := h.next_epoch
  unfold checkCommitEpoch at he
  split at he
  · simp only [Except.bind_eq_ok, refuse_eq_ok, checkedSucc_eq_ok, not_not] at he
    obtain ⟨e, ⟨-, rfl⟩, he⟩ := he
    omega
  · have := refuse_eq_ok.mp he
    omega

/-! ## The fold of a chain -/

def replay (chain : List CatalogCommit) : Except CatalogError CatalogState := chain.foldlM applyCatalogMutation {}

@[simp] theorem replay_nil : replay [] = .ok {} := rfl

theorem replay_concat (chain : List CatalogCommit) (commit : CatalogCommit) :
    replay (chain ++ [commit]) = replay chain >>= (applyCatalogMutation · commit) := by
  simp [replay]

theorem replay_concat_eq_ok :
    replay (chain ++ [commit]) = .ok next ↔ ∃ state, replay chain = .ok state ∧
      applyCatalogMutation state commit = .ok next := by
  rw [replay_concat, Except.bind_eq_ok]

theorem replay_generation (h : replay chain = .ok state) : state.generation = chain.length := by
  induction chain using List.reverseRecOn generalizing state with
  | nil => cases h; rfl
  | append_singleton chain commit ih =>
    obtain ⟨before, hb, ha⟩ := replay_concat_eq_ok.mp h
    have happ := applies_of_ok ha
    rw [happ.next_generation, happ.generation, ih hb, List.length_append, List.length_singleton]

/-- Epochs never fall along a chain. -/
theorem replay_epoch_le (h : replay chain = .ok state) {c : CatalogCommit} (hc : c ∈ chain) :
    c.mutation.writerEpoch ≤ state.writerEpoch := by
  induction chain using List.reverseRecOn generalizing state with
  | nil => cases hc
  | append_singleton chain commit ih =>
    obtain ⟨before, hb, ha⟩ := replay_concat_eq_ok.mp h
    have happ := applies_of_ok ha
    rcases List.mem_append.mp hc with hc | hc
    · exact (ih hb hc).trans happ.epoch_le
    · rw [List.mem_singleton.mp hc, happ.next_epoch]

/-- The state after the first commits of a chain, as many as its generation says. -/
def Reaches (chain : List CatalogCommit) (state : CatalogState) : Prop :=
  replay (chain.take state.generation) = .ok state

theorem Reaches.le (h : Reaches chain state) : state.generation ≤ chain.length := by
  have hg := replay_generation h
  rw [List.length_take] at hg
  omega

theorem reaches_empty : Reaches chain {} := rfl

theorem Reaches.grow (h : Reaches chain state) (hgrow : chain <+: chain') : Reaches chain' state := by
  obtain ⟨rest, rfl⟩ := hgrow
  rw [Reaches, List.take_append_of_le_length h.le]
  exact h

/-- A state that is reached at the end of the chain is the one of the whole chain. -/
theorem Reaches.whole (h : Reaches chain state) (hlen : chain.length ≤ state.generation) :
    replay chain = .ok state := by
  rw [Reaches, List.take_of_length_le hlen] at h
  exact h

theorem Reaches.apply (h : Reaches chain state) (hc : chain[state.generation]? = some commit)
    (ha : applyCatalogMutation state commit = .ok next) : Reaches chain next := by
  have happ := applies_of_ok ha
  rw [Reaches, happ.next_generation, happ.generation, List.take_add_one, hc]
  exact replay_concat_eq_ok.mpr ⟨state, h, ha⟩

/-- A commit stays where it is in a chain that grows. -/
theorem getElem?_grow {i : Nat} (h : chain[i]? = some commit) (hgrow : chain <+: chain') :
    chain'[i]? = some commit := by
  obtain ⟨rest, rfl⟩ := hgrow
  rw [List.getElem?_append_left (List.getElem?_eq_some_iff.mp h).1]
  exact h

/-! ## One call -/

@[simp] theorem Bucket.of_update (bucket : Bucket) (kind kind' : CatalogKind) (replica replica' : Replica)
    (f : CatalogObjects → CatalogObjects) :
    (bucket.update kind replica f).of kind' replica' =
      if kind = kind' ∧ replica = replica' then f (bucket.of kind replica) else bucket.of kind' replica' := by
  cases kind <;> cases replica <;> cases kind' <;> cases replica' <;> rfl

namespace Site

variable {site site' : Site} {h : Nat} {op : CatalogOp}

theorem handle_setHandle (site : Site) (h h' : Nat) (f : Handle → Handle) :
    (site.setHandle h f).handle h' = site.handle h' ∨
      h' = h ∧ (site.setHandle h f).handle h' = f (site.handle h') := by
  unfold setHandle handle
  simp only [List.getElem?_modify]
  by_cases hh : h = h'
  · subst hh
    cases site.handles[h]? with
    | none => exact .inl rfl
    | some handle => exact .inr ⟨rfl, by simp⟩
  · exact .inl (by simp [hh])

/-- A call takes effect or leaves everything as it was. -/
theorem perform_site (site : Site) (h : Nat) (reply : Reply) (op : CatalogOp) :
    (site.perform h reply op).2 = site ∨ (site.perform h reply op).2 = site.effect h op := by
  unfold perform
  split
  · exact .inr rfl
  · cases op <;> first | exact .inl rfl | exact .inr rfl
  · exact .inr rfl

/--
Every object is the commit or the snapshot that the chain has for its generation. The first replica of a commit is
missing only after it was deleted, which never happens to the last one.
-/
structure Linear (sha : Sha) (site : Site) : Prop where
  folds : ∃ state, replay site.chain = .ok state
  commits : ∀ replica g object, (site.bucket.of .commits replica)[g]? = some object →
    ∃ commit, object = .commit commit ∧ 0 < g ∧ site.chain[g - 1]? = some commit
  snapshots : ∀ replica g object, (site.bucket.of .snapshots replica)[g]? = some object →
    ∃ state, object = .snapshot (state.snapshot sha) ∧ state.generation = g ∧ Reaches site.chain state
  first : ∀ g, 0 < g → g ≤ site.chain.length → g ∈ site.bucket.of .commits .a ∨ g ∈ site.pruned
  pruned : ∀ g ∈ site.pruned, g < site.chain.length
  caches : ∀ h state, (site.handle h).cache = some state → Reaches site.chain state

/-- What a handle asks for: commits and snapshots of the chain, or a commit on top of a state of the chain. -/
def Allowed (sha : Sha) (site : Site) : CatalogOp → Prop
  | .create .commits replica g (.commit commit) =>
    0 < g ∧ site.chain[g - 1]? = some commit ∨
      replica = .a ∧ ∃ state next, Reaches site.chain state ∧ g = state.generation + 1 ∧
        applyCatalogMutation state commit = .ok next
  | .create .snapshots _ g (.snapshot snapshot) =>
    ∃ state, snapshot = state.snapshot sha ∧ state.generation = g ∧ Reaches site.chain state
  | .create .. => False
  | .delete .commits .a g => g < site.chain.length
  | .writeCache (some state) => Reaches site.chain state
  | _ => True

/--
The first replica of a commit is not created under a generation that was deleted, unless it is the commit that was
there.
-/
def Calm (site : Site) : CatalogOp → Prop
  | .create .commits .a g (.commit commit) => g ∈ site.pruned → site.chain[g - 1]? = some commit
  | _ => True

instance (site : Site) (op : CatalogOp) : Decidable (site.Calm op) := by
  unfold Calm
  split <;> infer_instance

end Site

/-! ## What a call keeps -/

theorem Bucket.getElem?_insert (bucket : Bucket) (kind kind' : CatalogKind) (replica replica' : Replica) (g g' : Nat)
    (object : CatalogObject) :
    ((bucket.update kind replica (·.insert g object)).of kind' replica')[g']? =
      if kind = kind' ∧ replica = replica' ∧ g = g' then some object else (bucket.of kind' replica')[g']? := by
  rw [Bucket.of_update]
  by_cases hk : kind = kind' ∧ replica = replica'
  · obtain ⟨rfl, rfl⟩ := hk
    simp [OrdMap.getElem?_insert]
  · rw [if_neg hk, if_neg fun hc => hk ⟨hc.1, hc.2.1⟩]

theorem Bucket.getElem?_erase (bucket : Bucket) (kind kind' : CatalogKind) (replica replica' : Replica) (g g' : Nat) :
    ((bucket.update kind replica (·.erase g)).of kind' replica')[g']? =
      if kind = kind' ∧ replica = replica' ∧ g = g' then none else (bucket.of kind' replica')[g']? := by
  rw [Bucket.of_update]
  by_cases hk : kind = kind' ∧ replica = replica'
  · obtain ⟨rfl, rfl⟩ := hk
    simp [ExtTreeMap.getElem?_erase]
  · rw [if_neg hk, if_neg fun hc => hk ⟨hc.1, hc.2.1⟩]

namespace Site

variable {sha : Sha} {site : Site} {h : Nat} {op : CatalogOp}

theorem getElem?_create (kind kind' : CatalogKind) (replica replica' : Replica) (g g' : Nat) (object : CatalogObject) :
    ((site.create kind replica g object).bucket.of kind' replica')[g']? =
      if kind = kind' ∧ replica = replica' ∧ g = g' then some object else (site.bucket.of kind' replica')[g']? :=
  Bucket.getElem?_insert ..

theorem getElem?_delete (kind kind' : CatalogKind) (replica replica' : Replica) (g g' : Nat) :
    ((site.delete kind replica g).bucket.of kind' replica')[g']? =
      if kind = kind' ∧ replica = replica' ∧ g = g' then none else (site.bucket.of kind' replica')[g']? :=
  Bucket.getElem?_erase ..

theorem mem_create {kind kind' : CatalogKind} {replica replica' : Replica} {g g' : Nat} {object : CatalogObject} :
    g' ∈ (site.create kind replica g object).bucket.of kind' replica' ↔
      (kind = kind' ∧ replica = replica' ∧ g = g') ∨ g' ∈ site.bucket.of kind' replica' := by
  simp only [ExtTreeMap.mem_iff_isSome_getElem?, getElem?_create]
  split <;> simp_all

theorem mem_delete {kind kind' : CatalogKind} {replica replica' : Replica} {g g' : Nat} :
    g' ∈ (site.delete kind replica g).bucket.of kind' replica' ↔
      ¬ (kind = kind' ∧ replica = replica' ∧ g = g') ∧ g' ∈ site.bucket.of kind' replica' := by
  simp only [ExtTreeMap.mem_iff_isSome_getElem?, getElem?_delete]
  split <;> simp_all

/-- Only the commit after the last one makes the chain longer. -/
theorem chain_create_of_le {replica : Replica} {g : Nat} {commit : CatalogCommit} (hg : g ≤ site.chain.length) :
    (site.create .commits replica g (.commit commit)).chain = site.chain := by
  have hne : g ≠ site.history.length + 1 := by
    rw [chain, List.length_reverse] at hg
    omega
  cases replica <;> simp [create, chain, hne]

theorem chain_create_next (site : Site) (commit : CatalogCommit) :
    (site.create .commits .a (site.chain.length + 1) (.commit commit)).chain = site.chain ++ [commit] := by
  simp [create, chain]

/-- What holds of a chain and its objects holds when the chain grows and no object changes. -/
theorem Linear.commits_grow (hl : site.Linear sha) {chain : List CatalogCommit} (hgrow : site.chain <+: chain)
    {replica : Replica} {g : Nat} {object : CatalogObject}
    (ho : (site.bucket.of .commits replica)[g]? = some object) :
    ∃ commit, object = .commit commit ∧ 0 < g ∧ chain[g - 1]? = some commit := by
  obtain ⟨commit, rfl, hg, hc⟩ := hl.commits replica g object ho
  exact ⟨commit, rfl, hg, getElem?_grow hc hgrow⟩

/-- The replica of a commit that is in the chain. -/
theorem Linear.create_commit (hl : site.Linear sha) (replica : Replica) {g : Nat} {commit : CatalogCommit} (hg : 0 < g)
    (hc : site.chain[g - 1]? = some commit) :
    (site.create .commits replica g (.commit commit)).Linear sha ∧
      (site.create .commits replica g (.commit commit)).chain = site.chain := by
  have hchain : (site.create .commits replica g (.commit commit)).chain = site.chain := by
    have := (List.getElem?_eq_some_iff.mp hc).1
    exact chain_create_of_le (by omega)
  refine ⟨⟨?_, ?_, ?_, ?_, ?_, ?_⟩, hchain⟩ <;> rw [hchain]
  · exact hl.folds
  · intro r g' object ho
    rw [getElem?_create] at ho
    split at ho
    next heq =>
      obtain ⟨-, -, rfl⟩ := heq
      cases ho
      exact ⟨commit, rfl, hg, hc⟩
    next => exact hl.commits r g' object ho
  · intro r g' object ho
    rw [getElem?_create, if_neg (by simp)] at ho
    exact hl.snapshots r g' object ho
  · intro g' h0 hle
    exact (hl.first g' h0 hle).imp_left fun hm => mem_create.mpr (.inr hm)
  · exact hl.pruned
  · exact hl.caches

/-- The first replica of a commit on top of the whole chain. -/
theorem Linear.create_next (hl : site.Linear sha) {state next : CatalogState} {commit : CatalogCommit}
    (hs : replay site.chain = .ok state) (ha : applyCatalogMutation state commit = .ok next) :
    (site.create .commits .a (site.chain.length + 1) (.commit commit)).Linear sha ∧
      (site.create .commits .a (site.chain.length + 1) (.commit commit)).chain = site.chain ++ [commit] := by
  have hchain := site.chain_create_next commit
  have hgrow : site.chain <+: site.chain ++ [commit] := List.prefix_append _ _
  refine ⟨⟨?_, ?_, ?_, ?_, ?_, ?_⟩, hchain⟩ <;> rw [hchain]
  · exact ⟨next, replay_concat_eq_ok.mpr ⟨state, hs, ha⟩⟩
  · intro r g object ho
    rw [getElem?_create] at ho
    split at ho
    next heq =>
      obtain ⟨-, -, rfl⟩ := heq
      cases ho
      exact ⟨commit, rfl, Nat.succ_pos _, by simp⟩
    next => exact hl.commits_grow hgrow ho
  · intro r g object ho
    rw [getElem?_create, if_neg (by simp)] at ho
    obtain ⟨st, rfl, hg, hr⟩ := hl.snapshots r g object ho
    exact ⟨st, rfl, hg, hr.grow hgrow⟩
  · intro g h0 hle
    rw [mem_create]
    by_cases hg : g ≤ site.chain.length
    · exact (hl.first g h0 hg).imp_left .inr
    · simp only [List.length_append, List.length_singleton] at hle
      exact .inl (.inl ⟨rfl, rfl, by omega⟩)
  · intro g hg
    have := hl.pruned g hg
    simp only [List.length_append, List.length_singleton]
    omega
  · intro h' st hst
    exact (hl.caches h' st hst).grow hgrow

/-- The first replica of a commit on top of any state of the chain: its generation is the next one or was deleted. -/
theorem Linear.create_first (hl : site.Linear sha) {state next : CatalogState} {commit : CatalogCommit}
    (hr : Reaches site.chain state) (ha : applyCatalogMutation state commit = .ok next)
    (hc : site.Calm (.create .commits .a (state.generation + 1) (.commit commit)))
    (habsent : state.generation + 1 ∉ site.bucket.of .commits .a) :
    (site.create .commits .a (state.generation + 1) (.commit commit)).Linear sha ∧
      site.chain <+: (site.create .commits .a (state.generation + 1) (.commit commit)).chain ∧
      (site.create .commits .a (state.generation + 1) (.commit commit)).chain[state.generation]? = some commit := by
  by_cases hle : state.generation + 1 ≤ site.chain.length
  · have hin := hc ((hl.first _ (Nat.succ_pos _) hle).resolve_left habsent)
    obtain ⟨hlin, hchain⟩ := hl.create_commit .a (Nat.succ_pos _) hin
    rw [hchain]
    exact ⟨hlin, List.prefix_rfl, hin⟩
  · have hlen : state.generation = site.chain.length := by
      have := hr.le
      omega
    rw [hlen]
    obtain ⟨hlin, hchain⟩ := hl.create_next (hr.whole hlen.ge) ha
    rw [hchain]
    exact ⟨hlin, List.prefix_append _ _, by simp⟩

theorem Linear.create_snapshot (hl : site.Linear sha) {replica : Replica} {state : CatalogState}
    (hs : Reaches site.chain state) :
    (site.create .snapshots replica state.generation (.snapshot (state.snapshot sha))).Linear sha := by
  refine ⟨hl.folds, ?_, ?_, ?_, hl.pruned, hl.caches⟩
  · intro r g object ho
    rw [getElem?_create, if_neg (by simp)] at ho
    exact hl.commits r g object ho
  · intro r g object ho
    rw [getElem?_create] at ho
    split at ho
    next heq =>
      obtain ⟨-, -, rfl⟩ := heq
      cases ho
      exact ⟨state, rfl, rfl, hs⟩
    next => exact hl.snapshots r g object ho
  · intro g h0 hle
    exact (hl.first g h0 hle).imp_left fun hm => mem_create.mpr (.inr hm)

theorem Linear.delete (hl : site.Linear sha) {kind : CatalogKind} {replica : Replica} {g : Nat}
    (hg : kind = .commits → replica = .a → g < site.chain.length) : (site.delete kind replica g).Linear sha := by
  have hold : ∀ kind' replica' (g' : Nat) object,
      ((site.delete kind replica g).bucket.of kind' replica')[g']? = some object →
      (site.bucket.of kind' replica')[g']? = some object := by
    intro kind' replica' g' object ho
    rw [getElem?_delete] at ho
    split at ho
    · cases ho
    · exact ho
  refine ⟨hl.folds, fun r g' o ho => hl.commits r g' o (hold _ _ _ _ ho),
    fun r g' o ho => hl.snapshots r g' o (hold _ _ _ _ ho), ?_, ?_, hl.caches⟩
  · intro g' h0 hle
    by_cases heq : kind = .commits ∧ replica = .a ∧ g = g'
    · obtain ⟨rfl, rfl, rfl⟩ := heq
      exact .inr List.mem_cons_self
    · refine (hl.first g' h0 hle).imp (fun hm => mem_delete.mpr ⟨heq, hm⟩) fun hp => ?_
      unfold Site.delete
      dsimp only
      split
      · exact List.mem_cons_of_mem _ hp
      · exact hp
  · intro g' hm
    simp only [Site.delete] at hm ⊢
    split at hm
    next =>
      rcases List.mem_cons.mp hm with rfl | hm
      · exact hg rfl rfl
      · exact hl.pruned g' hm
    next => exact hl.pruned g' hm

theorem Linear.setHandle (hl : site.Linear sha) {f : Handle → Handle}
    (hf : ∀ handle state, (f handle).cache = some state → handle.cache = some state ∨ Reaches site.chain state) :
    (site.setHandle h f).Linear sha := by
  refine ⟨hl.folds, hl.commits, hl.snapshots, hl.first, hl.pruned, fun h' state hst => ?_⟩
  rcases handle_setHandle site h h' f with heq | ⟨-, heq⟩ <;> rw [heq] at hst
  · exact hl.caches h' state hst
  · rcases hf _ _ hst with hst | hr
    · exact hl.caches h' state hst
    · exact hr

/-- **One call.** What a handle may ask for keeps the chain, when no deleted generation is taken again. -/
theorem Linear.effect (hl : site.Linear sha) (ha : site.Allowed sha op) (hc : site.Calm op) :
    (site.effect h op).Linear sha ∧ site.chain <+: (site.effect h op).chain := by
  have hsame : site.Linear sha ∧ site.chain <+: site.chain := ⟨hl, List.prefix_rfl⟩
  cases op with
  | get | list | listAged | legacyManifest | readCache | readEpoch => exact hsame
  | create kind replica g object =>
    simp only [Site.effect]
    split
    next => exact hsame
    next habsent =>
      cases kind with
      | snapshots =>
        cases object with
        | snapshot snapshot =>
          obtain ⟨state, rfl, rfl, hr⟩ := ha
          exact ⟨hl.create_snapshot hr, List.prefix_rfl⟩
        | commit | damaged => exact ha.elim
      | commits =>
        cases object with
        | snapshot | damaged => exact ha.elim
        | commit commit =>
          rcases ha with ⟨hg, hin⟩ | ⟨rfl, state, next, hr, rfl, ha⟩
          · obtain ⟨hlin, hchain⟩ := hl.create_commit replica hg hin
            exact ⟨hlin, by rw [hchain]⟩
          · obtain ⟨hlin, hgrow, -⟩ := hl.create_first hr ha hc habsent
            exact ⟨hlin, hgrow⟩
  | delete kind replica g =>
    refine ⟨hl.delete fun hk hr => ?_, List.prefix_rfl⟩
    subst hk hr
    exact ha
  | upload | deleteObject => exact ⟨⟨hl.folds, hl.commits, hl.snapshots, hl.first, hl.pruned, hl.caches⟩,
      List.prefix_rfl⟩
  | writeCache state =>
    refine ⟨hl.setHandle fun handle st hst => .inr ?_, List.prefix_rfl⟩
    cases hst
    exact ha
  | writeEpoch epoch => exact ⟨hl.setHandle fun handle st hst => .inl hst, List.prefix_rfl⟩

end Site

/-! ## The protocol of the handles -/

/-- What the chain has for the generation of an object. -/
def Fits (sha : Sha) (chain : List CatalogCommit) : CatalogKind → Nat → CatalogObject → Prop
  | .commits, g, object => ∃ commit, object = .commit commit ∧ 0 < g ∧ chain[g - 1]? = some commit
  | .snapshots, g, object => ∃ state, object = .snapshot (state.snapshot sha) ∧ state.generation = g ∧
      Reaches chain state

theorem Fits.grow {sha : Sha} {chain chain' : List CatalogCommit} {kind : CatalogKind} {g : Nat}
    {object : CatalogObject}
    (h : Fits sha chain kind g object) (hgrow : chain <+: chain') : Fits sha chain' kind g object := by
  cases kind with
  | commits =>
    obtain ⟨commit, rfl, hg, hc⟩ := h
    exact ⟨commit, rfl, hg, getElem?_grow hc hgrow⟩
  | snapshots =>
    obtain ⟨state, rfl, hg, hr⟩ := h
    exact ⟨state, rfl, hg, hr.grow hgrow⟩

/-- The state in a snapshot is one of the chain. -/
theorem Fits.reaches {sha : Sha} {chain : List CatalogCommit} {g : Nat} {snapshot : CatalogSnapshot}
    (hf : Fits sha chain .snapshots g (.snapshot snapshot)) : Reaches chain snapshot.state := by
  obtain ⟨state, heq, -, hr⟩ := hf
  cases heq
  exact hr

namespace Site

variable {sha : Sha} {site : Site} {h : Nat}

theorem Linear.fits (hl : site.Linear sha) {kind : CatalogKind} {replica : Replica} {g : Nat} {object : CatalogObject}
    (ho : (site.bucket.of kind replica)[g]? = some object) : Fits sha site.chain kind g object := by
  cases kind with
  | commits => exact hl.commits replica g object ho
  | snapshots => exact hl.snapshots replica g object ho

/-- All handles keep the chain, which only grows. -/
def protocol (sha : Sha) : Protocol Site :=
  ⟨Linear sha, fun s t => s.chain <+: t.chain, fun _ => List.prefix_rfl, List.IsPrefix.trans⟩

/-- What a call of a handle can answer and leave, when it takes no deleted generation again. -/
def Answers (h : Nat) (op : CatalogOp) (s : Site) (answer : op.Answer) (t : Site) : Prop :=
  s.Calm op ∧ ∃ reply, s.perform h reply op = (answer, t)

theorem Linear.perform (hl : site.Linear sha) {op : CatalogOp} (ha : site.Allowed sha op) (hc : site.Calm op)
    (reply : Reply) :
    (site.perform h reply op).2.Linear sha ∧ site.chain <+: (site.perform h reply op).2.chain := by
  rcases perform_site site h reply op with heq | heq <;> rw [heq]
  · exact ⟨hl, List.prefix_rfl⟩
  · exact hl.effect ha hc

end Site

end Signy
