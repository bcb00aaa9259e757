/-
What the programs of a catalog handle return while other handles work on the same bucket.

Every lemma is about one function of the handle and says what its value tells about the chain from then on. None of
them says that a call succeeds.
-/
import Mathlib
import Fn0.Signy.CatalogReads

namespace Signy

open Site Keeper

open Std (ExtTreeMap ExtTreeSet)

/-- The handles as keepers of the chain: an object that was read fits the chain from then on. -/
def linearKeeper (sha : Sha) (h : Nat) : Keeper sha h where
  toProtocol := protocol sha
  answers := Answers h
  Holds kind _ g object s := Fits sha s.chain kind g object
  performs := fun ⟨_, hp⟩ => hp
  grow := id
  holds := fun hl ho => Linear.fits hl ho
  holds_later := fun hf hgrow => hf.grow hgrow
  fits := id
  create := fun {s kind replica g object} hl hf habsent => by
    cases kind with
    | commits =>
      obtain ⟨commit, rfl, hg, hc⟩ := hf
      obtain ⟨hlin, hchain⟩ := Linear.create_commit hl replica hg hc
      exact ⟨hlin, by rw [protocol]; dsimp only; rw [hchain]⟩
    | snapshots =>
      obtain ⟨state, rfl, rfl, hr⟩ := hf
      exact ⟨Linear.create_snapshot hl hr, List.prefix_rfl⟩

section Programs

variable {sha : Sha} {h : Nat} {s : Site} {α : Type}

/-- The program keeps the chain whatever the others do, and its value meets `R` from then on. -/
abbrev Gives (sha : Sha) (h : Nat) (x : CatalogM α) (R : α → Site → Prop) (s : Site) : Prop :=
  (linearKeeper sha h).Gives x R s

/-- A call that may be asked for at any later time, and what its answer tells from then on. -/
theorem gives_ask {op : CatalogOp} {R : op.Answer → Site → Prop}
    (ha : ∀ t : Site, s.chain <+: t.chain → t.Linear sha → t.Allowed sha op)
    (hR : ∀ (t : Site) (reply : Reply) (v : Site), s.chain <+: t.chain → t.Linear sha → t.Calm op →
      (t.perform h reply op).2.chain <+: v.chain → v.Linear sha → R (t.perform h reply op).1 v) :
    Gives sha h (ask op) R s := by
  refine Calls.gives_perform fun t ht hi answer u hu => ?_
  obtain ⟨hc, reply, hu⟩ := hu
  obtain ⟨hlin, hgrow⟩ := Linear.perform (h := h) hi (ha t ht hi) hc reply
  rw [hu] at hlin hgrow
  refine ⟨hlin, hgrow, fun v hv hvi => ?_⟩
  have := hR t reply v ht hi hc
  rw [hu] at this
  exact this hv hvi

/-- A call whose answer is not looked at. -/
theorem gives_ask_true (op : CatalogOp) (ha : ∀ t : Site, s.chain <+: t.chain → t.Linear sha → t.Allowed sha op) :
    Gives sha h (ask op) (fun _ _ => True) s :=
  gives_ask ha fun _ _ _ _ _ _ _ _ => trivial

/-! ## Loading -/

/-- The generations after a given one: what is listed reaches as far as the chain did when the listing began. -/
theorem gives_commitGenerations {offset n : Nat} (hn : n ≤ s.chain.length) :
    Gives sha h (catalogGenerations .commits (some offset))
      (fun generations _ => n ≤ offset ∨ ∃ g ∈ generations, n ≤ g) s := by
  have hfirst : Gives sha h (storeCall .listFailed (ask (.list .commits .a (some offset))))
      (fun generations _ => n ≤ offset ∨ ∃ g ∈ generations, n ≤ g) s := by
    refine gives_storeCall (gives_ask (fun _ _ _ => trivial) fun t reply v hst ht _ hv _ generations hg => ?_)
      fun _ _ _ ha _ => ha
    have hlen : n ≤ t.chain.length := hn.trans hst.length_le
    by_cases hoff : t.chain.length ≤ offset
    · exact .inl (hlen.trans hoff)
    · have hlast : t.chain.length ∈ t.bucket.of .commits .a :=
        (ht.first _ (by omega) le_rfl).resolve_right fun hp => (ht.pruned _ hp).false
      unfold Site.perform at hg
      split at hg
      · cases hg
        refine .inr ⟨t.chain.length, List.mem_filter.mpr ⟨ExtTreeMap.mem_keys.mpr hlast, ?_⟩, hlen⟩
        simpa using hoff
      · cases hg
      · cases hg
  refine hfirst.bind fun first t _ _ hf => ?_
  refine (gives_storeCall_true (gives_ask_true (.list .commits .b (some offset)) fun _ _ _ => trivial)).bind
    fun second u _ _ _ =>
    Calls.gives_pure fun v _ _ => hf.imp_right fun ⟨g, hg, hle⟩ => ⟨g, ?_, hle⟩
  rw [ExtTreeSet.mem_toList]
  simp [hg]

theorem gives_cacheState {state : CatalogState} (hr : Reaches s.chain state) :
    Gives sha h (cacheState state) (fun _ _ => True) s := by
  unfold cacheState
  split
  · exact gives_ask_true _ fun t ht _ => hr.grow ht
  · exact Calls.gives_pure fun _ _ _ => trivial

/-- **Loading.** A load without a cached state returns a state of the chain that has at least the commits of its
start. -/
theorem gives_freshCatalogState {n : Nat} (hn : n ≤ s.chain.length) :
    Gives sha h (freshCatalogState sha) (fun state t => Reaches t.chain state ∧ n ≤ state.generation) s := by
  refine Calls.Gives.bind (gives_catalogGenerations.bind fun _ _ _ _ _ => gives_firstSnapshot) fun o t hst _ ho => ?_
  have hr : Reaches t.chain ((o.map (·.state)).getD {}) := by
    cases o with
    | none => exact reaches_empty
    | some snapshot => exact ho snapshot rfl
  refine Calls.Gives.bind (gives_commitGenerations (hn.trans hst.length_le)) fun generations u htu _ hgen => ?_
  refine gives_checkLegacyManifest.bind fun _ u₁ hu₁ _ _ => gives_checkLegacyManifest.bind fun _ u₂ hu₂ _ _ =>
    gives_checkLegacyManifest.bind fun _ u₃ hu₃ _ _ => ?_
  refine (gives_replayCommits (hr.grow (htu.trans (hu₁.trans (hu₂.trans hu₃))))).bind fun state v _ _ hv => ?_
  obtain ⟨hreach, hle, hall⟩ := hv
  refine (gives_cacheState hreach).bind fun _ w hw _ _ => Calls.gives_pure fun x hx _ => ?_
  refine ⟨hreach.grow (hw.trans hx), ?_⟩
  rcases hgen with hoff | ⟨g, hg, hle'⟩
  · exact hoff.trans hle
  · exact hle'.trans (hall g hg)

theorem gives_readCache :
    Gives sha h (ask .readCache) (fun o t => ∀ state, o = some state → Reaches t.chain state) s := by
  refine gives_ask (fun _ _ _ => trivial) fun t reply v _ ht _ hv _ state hst => ?_
  have hcache : (t.handle h).cache = some state ∧ t.chain <+: v.chain := by
    unfold Site.perform at hst hv
    split at hst <;> exact ⟨hst, by simpa [*, Site.effect] using hv⟩
  exact (ht.caches h state hcache.1).grow hcache.2

theorem gives_loadCatalogState : Gives sha h (loadCatalogState sha) (fun state t => Reaches t.chain state) s := by
  refine gives_readCache.bind fun o t _ _ ho => ?_
  split
  next state => exact Calls.gives_pure fun u hu _ => (ho state rfl).grow hu
  next => exact (gives_freshCatalogState (Nat.zero_le _)).mono fun _ _ _ _ hst => hst.1

/-! ## Pruning -/

/-- A pass never deletes the last commit. -/
theorem gives_prune : Gives sha h (pruneCatalog sha) (fun _ _ => True) s := by
  refine gives_pruneCatalog fun newest oldest t _ _ hold u htu hu kind replica g hg => ?_
  obtain ⟨snapshot, state, -, rfl, hr⟩ := hold .a
  exact ⟨Linear.delete hu fun _ _ => hg.trans_le (hr.grow htu).le, List.prefix_rfl⟩

/-! ## Committing -/

theorem gives_snapshotOnInterval {state : CatalogState} (hr : Reaches s.chain state) :
    Gives sha h (snapshotOnInterval sha state) (fun _ _ => True) s := by
  unfold snapshotOnInterval
  split
  · exact (gives_writeCatalogSnapshot hr).attempt.bind fun _ _ _ _ _ => Calls.gives_pure fun _ _ _ => trivial
  · exact Calls.gives_pure fun _ _ _ => trivial

/-- A commit whose first replica was created is in the chain at its generation. -/
theorem gives_createFirst {state next : CatalogState} {commit : CatalogCommit} (hr : Reaches s.chain state)
    (ha : applyCatalogMutation state commit = .ok next) :
    Gives sha h (catalogPutCreate .commits .a commit.generation (.commit commit))
      (fun created t => created = true → t.chain[state.generation]? = some commit) s := by
  have hgen := (applies_of_ok ha).generation
  rw [hgen]
  refine gives_storeCall (gives_ask (fun t ht _ => .inr ⟨rfl, state, next, hr.grow ht, rfl, ha⟩) ?_)
    fun _ _ _ hc hu htrue => getElem?_grow (hc htrue) hu
  intro t reply v hst ht hc hv _ created hcreated htrue
  subst htrue
  unfold Site.perform at hcreated hv
  split at hcreated
  next hdone =>
    have habsent : state.generation + 1 ∉ t.bucket.of .commits .a := by simpa [Site.answer] using hcreated
    obtain ⟨-, -, hin⟩ := ht.create_first (hr.grow hst) ha hc habsent
    rw [hdone] at hv
    simp only [Site.effect, if_neg habsent] at hv
    exact getElem?_grow hin hv
  next => cases hcreated
  next => cases hcreated

theorem gives_writeCommit {state next : CatalogState} {commit : CatalogCommit} (hr : Reaches s.chain state)
    (ha : applyCatalogMutation state commit = .ok next) :
    Gives sha h (writeCommit commit) (fun created t => created = true → t.chain[state.generation]? = some commit)
      s := by
  refine (gives_createFirst hr ha).bind fun created t _ _ hcreated => ?_
  have hgen := (applies_of_ok ha).generation
  split
  next htrue =>
    have hin := hcreated htrue
    have hf : Fits sha t.chain .commits commit.generation (.commit commit) :=
      ⟨commit, rfl, by omega, by rw [hgen]; exact hin⟩
    exact (gives_createSame hf).bind fun _ u hu _ _ => Calls.gives_pure fun v hv _ _ => getElem?_grow hin (hu.trans hv)
  next => exact Calls.gives_pure fun _ _ _ => nofun

/--
What an answer of `commit_catalog_mutation` says about the chain. A mutation that was committed is the one at the
generation of the returned state, and when the handle holds an epoch, no commit before it has a larger one.
-/
def Committed.Sound (chain : List CatalogCommit) (mutation : CatalogMutation) (committed : Committed) : Prop :=
  Reaches chain committed.state ∧
    match committed.ending with
    | .applied => ∃ g commit, committed.state.generation = g + 1 ∧ chain[g]? = some commit ∧
        commit.mutation = mutation ∧
        (committed.held ≠ 0 → ∀ c ∈ chain.take g, c.mutation.writerEpoch ≤ committed.held)
    | .repeated => committed.state.lastTransactionId = mutation.transactionId
    | .unchanged => True

theorem Committed.Sound.grow {chain chain' : List CatalogCommit} {mutation : CatalogMutation} {committed : Committed}
    (hs : committed.Sound chain mutation) (hgrow : chain <+: chain') : committed.Sound chain' mutation := by
  refine ⟨hs.1.grow hgrow, ?_⟩
  have h2 := hs.2
  split at h2
  next =>
    obtain ⟨g, commit, hg, hc, hm, hfence⟩ := h2
    refine ⟨g, commit, hg, getElem?_grow hc hgrow, hm, fun h0 c hmem => hfence h0 c ?_⟩
    obtain ⟨rest, rfl⟩ := hgrow
    rw [List.take_append_of_le_length (List.getElem?_eq_some_iff.mp hc).1.le] at hmem
    exact hmem
  next => exact h2
  next => trivial

theorem gives_writeCache {o : Option CatalogState} (hr : ∀ state, o = some state → Reaches s.chain state) :
    Gives sha h (ask (.writeCache o)) (fun _ _ => True) s := by
  refine gives_ask_true _ fun t ht _ => ?_
  cases o with
  | none => trivial
  | some state => exact (hr state rfl).grow ht

theorem gives_commitOn {mutation : CatalogMutation} {held : Nat} {state : CatalogState} (hr : Reaches s.chain state)
    (hheld : held = 0 ∨ state.writerEpoch = held) :
    Gives sha h (commitOn sha mutation held state)
      (fun o t => ∀ committed, o = some committed → committed.Sound t.chain mutation) s := by
  refine Calls.gives_check fun commit hcommit => Calls.gives_check fun next ha => ?_
  have happ := applies_of_ok ha
  have hmut : commit.mutation = mutation := by
    obtain ⟨g, -, hg⟩ := Except.bind_eq_ok.mp hcommit
    cases hg
    rfl
  split
  · refine (gives_writeCache fun st hst => by cases hst; exact hr).bind fun _ t ht _ _ =>
      Calls.gives_pure fun u hu _ committed hc => ?_
    cases hc
    exact ⟨hr.grow (ht.trans hu), trivial⟩
  · refine (gives_writeCommit hr ha).bind fun created t ht _ hcreated => ?_
    split
    next htrue =>
      have hin := hcreated htrue
      have hreach := (hr.grow ht).apply hin ha
      have hsound : Committed.Sound t.chain mutation ⟨next, held, .applied⟩ := by
        refine ⟨hreach, state.generation, commit, by rw [happ.next_generation, happ.generation], hin, hmut,
          fun h0 c hc => ?_⟩
        rw [← hheld.resolve_left h0]
        exact replay_epoch_le (hr.grow ht) hc
      refine (gives_writeCache fun st hst => by cases hst; exact hreach).bind fun _ u htu _ _ =>
        (gives_snapshotOnInterval (hreach.grow htu)).bind fun _ v huv _ _ =>
        Calls.gives_pure fun w hvw _ committed hc => ?_
      cases hc
      exact hsound.grow (htu.trans (huv.trans hvw))
    next =>
      exact (gives_writeCache fun _ hnone => by cases hnone).bind fun _ _ _ _ _ =>
        Calls.gives_pure fun _ _ _ _ hnone => by
        cases hnone

theorem gives_commitAttempt {mutation : CatalogMutation} :
    Gives sha h (commitAttempt sha mutation)
      (fun o t => ∀ committed, o = some committed → committed.Sound t.chain mutation) s := by
  refine gives_loadCatalogState.bind fun state t _ _ hr => ?_
  refine (gives_ask_true .readEpoch fun _ _ _ => trivial).bind fun held u htu _ _ =>
    Calls.gives_check fun _ hepoch => ?_
  have hheld := not_not.mp (refuse_eq_ok.mp hepoch)
  have hru := hr.grow htu
  split
  next htx =>
    refine Calls.gives_pure fun v hv _ committed hc => ?_
    cases hc
    exact ⟨hru.grow hv, htx⟩
  next =>
    split
    · refine Calls.gives_check fun _ _ => ?_
      split
      · exact Calls.gives_pure fun _ _ _ => nofun
      · exact gives_commitOn hru hheld
    · split
      · exact Calls.gives_throw
      · exact gives_commitOn hru hheld

theorem gives_commitAttempts {mutation : CatalogMutation} {n : Nat} :
    Gives sha h (commitAttempts sha mutation n) (fun committed t => committed.Sound t.chain mutation) s := by
  induction n generalizing s with
  | zero => exact Calls.gives_throw
  | succ n ih =>
    refine gives_commitAttempt.bind fun o t _ _ ho => ?_
    split
    next committed => exact Calls.gives_pure fun u hu _ => (ho committed rfl).grow hu
    next => exact ih

/-- **Committing.** An answer with success tells the truth about the chain, however the handles interleave. -/
theorem gives_commitCatalogMutation {mutation : CatalogMutation} :
    Gives sha h (commitCatalogMutation sha mutation) (fun committed t => committed.Sound t.chain mutation) s :=
  gives_commitAttempts

theorem gives_claimWriterEpoch {transactionId : String} :
    Gives sha h (claimWriterEpoch sha transactionId)
      (fun committed t => ∃ mutation : CatalogMutation, mutation.claimWriter = true ∧ committed.Sound t.chain mutation)
        s := by
  refine gives_loadCatalogState.bind fun state t _ _ _ => Calls.gives_check fun epoch _ =>
    gives_commitCatalogMutation.bind fun committed u _ _ hs => ?_
  exact (gives_ask_true (.writeEpoch _) fun _ _ _ => trivial).bind fun _ v huv _ _ =>
    Calls.gives_pure fun w hvw _ => ⟨_, rfl, hs.grow (huv.trans hvw)⟩

end Programs

end Signy
