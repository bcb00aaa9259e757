/-
Transactions are serializable on a backend whose revisions tell contents apart.

What a backend has to give is said once: an observation fits the store when it is made, it still fits after the writes
that are allowed, and a store that meets the condition of an observation that fits has the content that was observed.
Memory and Turso restart the version of a key that was deleted, so there a deletion is not allowed beside an attempt
that has read the document. An explicit transaction on memory puts a whole copy in the place of the store, and with it
older versions. Dodb never uses a revision again.
-/
import Mathlib
import Fn0.DocDb.Trx

namespace DocDb

open Dodb
open Attempt (TrxState Call)

/-! ## Backends that validate -/

/-- The condition of an observation. -/
def conditionOf (key : DocumentKey) : ObservedDocument → TransactionCondition
  | .present _ revision | .missing (some revision) => .revisionEquals key revision
  | .missing none => .notExists key

structure Lawful {σ : Type} (backend : Backend σ) (inv : σ → Prop) (fits : σ → DocumentKey → ObservedDocument → Prop)
    (apply : σ → List TransactionMutation → σ) (holds : σ → TransactionCondition → Prop)
    (allowed : σ → List TransactionMutation → Prop)
    (harmless : List TransactionMutation → DocumentKey → ObservedDocument → Prop) : Prop where
  put : ∀ {s} key data, inv s → (backend.put s key data).2 = apply s [.put key data] ∨ (backend.put s key data).2 = s
  delete : ∀ {s} key, inv s → (backend.delete s key).2 = apply s [.delete key] ∨ (backend.delete s key).2 = s
  working : ∀ {s write mutation}, backend.working = some write → inv s → inv (write s mutation)
  nothing : ∀ s, apply s [] = s
  observe : ∀ {s key observed}, inv s → backend.getObserved s key = .ok observed →
    backend.content s key = System.content observed ∧ fits s key observed
  inv_apply : ∀ {s mutations}, inv s → inv (apply s mutations)
  fits_apply : ∀ {s mutations key observed}, inv s → (mutations.map TransactionMutation.key).Nodup →
    allowed s mutations → harmless mutations key observed → fits s key observed → fits (apply s mutations) key observed
  check : ∀ {s key observed}, inv s → fits s key observed → holds s (conditionOf key observed) →
    backend.content s key = System.content observed
  get_apply : ∀ {s mutations} key, (mutations.map TransactionMutation.key).Nodup →
    backend.content (apply s mutations) key = (System.written mutations key).getD (backend.content s key)
  committed : ∀ {s t request}, inv s → backend.transact s request = (.ok none, t) →
    (∀ condition ∈ request.conditions, holds s condition) ∧ t = apply s request.mutations
  refused : ∀ {s t request result}, inv s → backend.transact s request = (result, t) → result ≠ .ok none → t = s

theorem nodup_of_firstRepeated {seen keys : List DocumentKey} (h : firstRepeated seen keys = none) :
    keys.Nodup ∧ ∀ key ∈ keys, key ∉ seen := by
  induction keys generalizing seen with
  | nil => exact ⟨List.nodup_nil, nofun⟩
  | cons key keys ih =>
    rw [firstRepeated] at h
    split at h
    · cases h
    next hnot =>
      obtain ⟨hnodup, hfresh⟩ := ih h
      refine ⟨List.nodup_cons.mpr ⟨fun hm => hfresh key hm List.mem_cons_self, hnodup⟩, ?_⟩
      exact List.forall_mem_cons.mpr ⟨hnot, fun other hm hseen => hfresh other hm (List.mem_cons_of_mem _ hseen)⟩

theorem nodup_of_validate {request : TransactionRequest} (h : validateTransactRequest request = .ok ()) :
    (request.conditions.map TransactionCondition.key).Nodup ∧
    (request.mutations.map TransactionMutation.key).Nodup := by
  unfold validateTransactRequest at h
  split at h
  · cases h
  next hconditions =>
    split at h
    · cases h
    next hmutations => exact ⟨(nodup_of_firstRepeated hconditions).1, (nodup_of_firstRepeated hmutations).1⟩

/-! ## Transactions -/

namespace System

variable {σ δ : Type} {backend : Backend σ} {keyOf : δ → DocumentKey} {serialize : δ → Except String Bytes}
  {inv : σ → Prop}
  {fits : σ → DocumentKey → ObservedDocument → Prop} {apply : σ → List TransactionMutation → σ}
  {holds : σ → TransactionCondition → Prop} {allowed : σ → List TransactionMutation → Prop}
  {harmless : List TransactionMutation → DocumentKey → ObservedDocument → Prop}
  {s t : System σ δ} {action : Action δ} {i : Nat} {run : Running δ}

/-- The revision of an observation. -/
def revisionOf : ObservedDocument → Option Nat
  | .present _ revision => some revision
  | .missing revision => revision

/-- Each read is tracked by an entry with its revision. -/
def Tracked (state : TrxState δ) (reads : List (DocumentKey × ObservedDocument)) : Prop :=
  ∀ read ∈ reads, ∃ entry ∈ state.entries,
    entry.observed = true ∧ entry.key = read.1 ∧ entry.expectedRevision = revisionOf read.2

/-- What was returned was loaded, and is tracked. -/
structure Honest (run : Running δ) : Prop where
  loaded : run.reads ⊆ run.loaded
  tracked : Tracked run.state run.reads

structure Kept (inv : σ → Prop) (fits : σ → DocumentKey → ObservedDocument → Prop) (s : System σ δ) : Prop where
  store : inv s.store
  working : ∀ working ∈ s.working, inv working
  running : ∀ run ∈ s.running, Honest run
  fits : ∀ run ∈ s.running, ∀ read ∈ run.loaded, fits s.store read.1 read.2

/-- Allowed writes beside the running attempts. -/
structure Calm (backend : Backend σ) (serialize : δ → Except String Bytes)
  (fits : σ → DocumentKey → ObservedDocument → Prop)
    (allowed : σ → List TransactionMutation → Prop)
    (harmless : List TransactionMutation → DocumentKey → ObservedDocument → Prop) (s : System σ δ) (action : Action δ) :
    Prop where
  allowed : allowed s.store (s.writes serialize action)
  harmless : ∀ run ∈ s.others action, ∀ read ∈ run.loaded, harmless (s.writes serialize action) read.1 read.2
  published : ∀ store ∈ s.published backend action, ∀ run ∈ s.running, ∀ read ∈ run.loaded, fits store read.1 read.2

/-- The condition of a read is among those of the request. -/
theorem Tracked.condition {state : TrxState δ} {reads : List (DocumentKey × ObservedDocument)} (h : Tracked state reads)
    {request : TransactionRequest} (hsent : sent serialize state = some request)
    {read : DocumentKey × ObservedDocument} (hr : read ∈ reads) : conditionOf read.1 read.2 ∈ request.conditions := by
  obtain ⟨entry, hm, hobserved, hkey, hrevision⟩ := h read hr
  have hconditions : request.conditions = state.entries.filterMap (Attempt.TrackedEntry.condition state.docs) := by
    unfold sent at hsent
    split at hsent
    · cases hsent
    next entries htaken =>
      cases Attempt.takeEntries_ok htaken
      unfold Attempt.request at hsent
      cases hmutations : state.entries.mapM (Attempt.TrackedEntry.mutation serialize state.docs) with
      | error error =>
        rw [hmutations] at hsent
        cases hsent
      | ok mutations =>
        rw [hmutations] at hsent
        cases hsent
        rfl
  rw [hconditions]
  refine List.mem_filterMap.mpr ⟨entry, hm, ?_⟩
  unfold Attempt.TrackedEntry.condition
  simp only [hobserved, Bool.not_true, Bool.false_and, Bool.false_eq_true, if_false]
  rw [← hkey]
  generalize read.2 = observed at hrevision ⊢
  match observed with
  | .present _ _ | .missing (some _) | .missing none => simp only [hrevision, revisionOf, conditionOf]

/-- Each entry is still there, with what it says of what was read. -/
def Grows (state state' : TrxState δ) : Prop :=
  ∀ entry ∈ state.entries, ∃ entry' ∈ state'.entries, entry'.observed = entry.observed ∧ entry'.key = entry.key ∧
    entry'.expectedRevision = entry.expectedRevision

theorem Grows.refl (state : TrxState δ) : Grows state state := fun entry hm => ⟨entry, hm, rfl, rfl, rfl⟩

theorem Grows.trans {a b c : TrxState δ} (hab : Grows a b) (hbc : Grows b c) : Grows a c := by
  intro entry hm
  obtain ⟨entry', hm', ho, hk, he⟩ := hab entry hm
  obtain ⟨entry'', hm'', ho', hk', he'⟩ := hbc entry' hm'
  exact ⟨entry'', hm'', ho'.trans ho, hk'.trans hk, he'.trans he⟩

theorem Grows.tracked {state state' : TrxState δ} (h : Grows state state')
    {reads : List (DocumentKey × ObservedDocument)}
    (htracked : Tracked state reads) : Tracked state' reads := by
  intro read hr
  obtain ⟨entry, hm, hobserved, hkey, hrevision⟩ := htracked read hr
  obtain ⟨entry', hm', ho, hk, he⟩ := h entry hm
  exact ⟨entry', hm', ho.trans hobserved, hk.trans hkey, he.trans hrevision⟩

theorem grows_create (state : TrxState δ) (doc : δ) : Grows state (state.create keyOf doc).1 := by
  intro entry hm
  rw [TrxState.create]
  split
  · exact ⟨entry, List.mem_append_left _ hm, rfl, rfl, rfl⟩
  · split
    · -- the entry that is filled keeps its key, its revision and that it was observed
      obtain ⟨k, hk⟩ := List.getElem?_of_mem hm
      refine ⟨_, List.mem_of_getElem? (i := k) ((List.getElem?_modify ..).trans (congrArg _ hk)), ?_⟩
      dsimp only
      split <;> exact ⟨rfl, rfl, rfl⟩
    · exact ⟨entry, hm, rfl, rfl, rfl⟩

/-- What reads leave: the entries there were, and if they succeed an entry of each. -/
structure Registers (state : TrxState δ) (reads : List (Attempt.Read δ)) {α : Type}
    (result : TrxState δ × Except Attempt.TrxError α) : Prop where
  grows : Grows state result.1
  tracked : result.2.isOk = true → Tracked result.1 (reads.map Attempt.Read.observation)

theorem Registers.failed {state state' : TrxState δ} {reads : List (Attempt.Read δ)} {α : Type}
    {error : Attempt.TrxError}
    (h : Grows state state') : Registers (α := α) state reads (state', .error error) :=
  ⟨h, nofun⟩

theorem grows_dropHandle (state : TrxState δ) (handle : Option Nat) : Grows state (state.dropHandle handle) := by
  cases handle <;> exact .refl _

theorem registers_registerLoaded (state : TrxState δ) (read : Attempt.Read δ) :
    Registers state [read] (state.registerLoaded read) := by
  have hpush : ∀ {state' : TrxState δ} {entry : Attempt.TrackedEntry} {handle : Option Nat},
      state'.entries = state.entries ++ [entry] → entry.observed = true → entry.key = read.key →
      entry.expectedRevision = revisionOf read.observed → Registers state [read] (state', .ok handle) := by
    intro state' entry handle heq hobserved hkey hrevision
    refine ⟨fun old hm => ⟨old, heq ▸ List.mem_append_left _ hm, rfl, rfl, rfl⟩, fun _ => ?_⟩
    exact List.forall_mem_singleton.mpr
      ⟨entry, heq ▸ List.mem_append_right _ (List.mem_singleton.mpr rfl), hobserved, hkey, hrevision⟩
  unfold TrxState.registerLoaded
  split
  · exact .failed (.refl _)
  · dsimp only
    split
    next data revision hobserved =>
      split
      · exact .failed (.refl _)
      · exact hpush rfl rfl rfl (by rw [hobserved]; rfl)
    next revision hobserved => exact hpush rfl rfl rfl (by rw [hobserved]; rfl)

theorem registers_finalize (state : TrxState δ) (reads : List (Attempt.Read δ)) :
    Registers state reads (state.finalize reads) := by
  induction reads generalizing state with
  | nil => exact ⟨.refl _, fun _ => nofun⟩
  | cons read reads ih =>
    have hread := registers_registerLoaded state read
    rw [TrxState.finalize]
    split
    next state' error heq =>
      rw [heq] at hread
      exact .failed hread.grows
    next state' handle heq =>
      rw [heq] at hread
      have hrest := ih state'
      split
      next state'' error heq' =>
        rw [heq'] at hrest
        exact .failed (hread.grows.trans (hrest.grows.trans (grows_dropHandle _ handle)))
      next state'' handles heq' =>
        rw [heq'] at hrest
        refine ⟨hread.grows.trans hrest.grows, fun _ => List.forall_mem_cons.mpr ⟨?_, hrest.tracked rfl⟩⟩
        exact hrest.grows.tracked (hread.tracked rfl) _ List.mem_cons_self

theorem registers_get (state : TrxState δ) (reads : List (Attempt.Read δ)) (failure : Option String) :
    Registers state reads (state.get reads failure) := by
  unfold TrxState.get
  split
  · exact .failed (.refl _)
  · split
    · exact .failed (.refl _)
    · exact registers_finalize state reads

theorem grows_step {state state' : TrxState δ} {call : Call δ} (h : Attempt.step keyOf state call = some state') :
    Grows state state' := by
  cases call with
  | get reads failure =>
    cases h
    exact (registers_get state reads failure).grows
  | resume reads =>
    cases h
    exact (registers_finalize state reads).grows
  | create doc =>
    cases h
    exact grows_create state doc
  | write | delete | drop =>
    cases (Option.ite_none_right_eq_some.mp h).2
    exact .refl _

theorem tracked_returned {state state' : TrxState δ} {call : Call δ} (h : Attempt.step keyOf state call = some state') :
    Tracked state' ((returned state call).map Attempt.Read.observation) := by
  cases call with
  | get reads failure =>
    cases h
    simp only [returned]
    split
    next hok => exact (registers_get state reads failure).tracked hok
    next => exact nofun
  | resume reads =>
    cases h
    simp only [returned]
    split
    next hok => exact (registers_finalize state reads).tracked hok
    next => exact nofun
  | create | write | delete | drop => exact nofun

theorem returned_subset (state : TrxState δ) (call : Call δ) : returned state call ⊆ readsOf call := by
  cases call with
  | get | resume =>
    simp only [returned, readsOf]
    split
    · exact List.Subset.refl _
    · exact List.nil_subset _
  | create | write | delete | drop => exact List.nil_subset _

theorem Honest.call (h : Honest run) {call : Call δ} {state : TrxState δ}
    (hloaded : ((readsOf call).all fun read => run.loaded.contains read.observation) = true)
    (hstep : Attempt.step keyOf run.state call = some state) :
    Honest { run with state, reads := (returned run.state call).map Attempt.Read.observation ++ run.reads } := by
  refine ⟨fun read hr => ?_, fun read hr => ?_⟩
  · rcases List.mem_append.mp hr with hr | hr
    · obtain ⟨r, hm, rfl⟩ := List.mem_map.mp hr
      exact List.contains_iff_mem.mp (List.all_eq_true.mp hloaded r (returned_subset run.state call hm))
    · exact h.loaded hr
  · rcases List.mem_append.mp hr with hr | hr
    · exact tracked_returned hstep read hr
    · exact (grows_step hstep).tracked h.tracked read hr

/-! ## Steps -/

section Lawful

variable (hl : Lawful backend inv fits apply holds allowed harmless)
include hl

/-- A commit that succeeds validated what was read and applied its mutations, one that does not left the store as it
was. -/
theorem commitEntries_spec (serialize : δ → Except String Bytes) {store : σ} (hs : inv store)
    (hfits : ∀ read ∈ run.loaded, fits store read.1 read.2) (hrun : Honest run) :
    ((commitEntries backend serialize store run.state).1 = .committed → ∃ request,
      sent serialize run.state = some request ∧ (request.mutations.map TransactionMutation.key).Nodup ∧
      (∀ read ∈ run.reads, backend.content store read.1 = content read.2) ∧
      (commitEntries backend serialize store run.state).2 = apply store request.mutations) ∧
    ((commitEntries backend serialize store run.state).1 ≠ .committed →
      (commitEntries backend serialize store run.state).2 = store) := by
  unfold commitEntries
  cases hsent : sent serialize run.state with
  | none => exact ⟨nofun, fun _ => rfl⟩
  | some request =>
    dsimp only
    split
    next hempty =>
      refine ⟨fun _ => ⟨request, rfl, ?_, fun read hr => ?_, ?_⟩, fun h => absurd rfl h⟩
      · rw [hempty.2]
        exact List.nodup_nil
      · have hm := hrun.tracked.condition hsent hr
        rw [hempty.1] at hm
        cases hm
      · rw [hempty.2, hl.nothing]
    next =>
      unfold Backend.checkedTransact
      cases hvalid : validateTransactRequest request with
      | error error => exact ⟨nofun, fun _ => rfl⟩
      | ok =>
        generalize hresult : backend.transact store request = result
        obtain ⟨outcome, after⟩ := result
        match outcome with
        | .ok none =>
          obtain ⟨hconditions, rfl⟩ := hl.committed hs hresult
          refine ⟨fun _ => ⟨request, rfl, (nodup_of_validate hvalid).2, fun read hr => ?_, rfl⟩, fun h => absurd rfl h⟩
          exact hl.check hs (hfits read (hrun.loaded hr)) (hconditions _ (hrun.tracked.condition hsent hr))
        | .ok (some index) =>
          have hsame := hl.refused hs hresult nofun
          subst hsame
          dsimp only
          split <;> exact ⟨nofun, fun _ => rfl⟩
        | .error error =>
          have hsame := hl.refused hs hresult nofun
          subst hsame
          exact ⟨nofun, fun _ => rfl⟩

/-- The store changes by allowed writes, and what runs is what ran beside the step. -/
theorem Kept.write (hk : s.Kept inv fits) {mutations : List TransactionMutation}
    (hnodup : (mutations.map TransactionMutation.key).Nodup) (hallowed : allowed s.store mutations)
    (hstore : t.store = apply s.store mutations) (hworking : t.working = s.working)
    (hrunning : ∀ run ∈ t.running, run ∈ s.running ∧ ∀ read ∈ run.loaded, harmless mutations read.1 read.2) :
    t.Kept inv fits := by
  refine ⟨hstore ▸ hl.inv_apply hk.store, hworking ▸ hk.working, fun run hm => hk.running run (hrunning run hm).1,
    fun run hm read hr => ?_⟩
  obtain ⟨hm, hharmless⟩ := hrunning run hm
  exact hstore ▸ hl.fits_apply hk.store hnodup hallowed (hharmless read hr) (hk.fits run hm read hr)

omit hl in
theorem Kept.same (hk : s.Kept inv fits) (hstore : t.store = s.store) (hworking : ∀ working ∈ t.working, inv working)
    (hrunning : ∀ run ∈ t.running, run ∈ s.running ∨
      Honest run ∧ ∀ read ∈ run.loaded, fits s.store read.1 read.2) : t.Kept inv fits := by
  refine ⟨hstore ▸ hk.store, hworking, fun run hm => ?_, fun run hm read hr => ?_⟩
  · exact (hrunning run hm).elim (hk.running run) (·.1)
  · rw [hstore]
    exact (hrunning run hm).elim (fun hm => hk.fits run hm read hr) fun h => h.2 read hr

omit hl in
theorem Kept.finish (hk : s.Kept inv fits) (i : Nat) (result : TrxResult) : (s.finish i result).Kept inv fits :=
  hk.same rfl hk.working fun _ hm => .inl (List.mem_of_mem_eraseIdx hm)

omit hl in
/-- One attempt goes on. -/
theorem Kept.set (hk : s.Kept inv fits) (hrun : Honest run) (hfits : ∀ read ∈ run.loaded, fits s.store read.1 read.2) :
    Kept inv fits { s with running := s.running.set i run } := by
  refine hk.same rfl hk.working fun other hm => ?_
  rcases List.mem_or_eq_of_mem_set hm with hm | rfl
  · exact .inl hm
  · exact .inr ⟨hrun, hfits⟩

theorem Kept.load (hk : s.Kept inv fits) (hm : run ∈ s.running) (key : DocumentKey) :
    (s.load backend i run key).Kept inv fits := by
  unfold System.load
  split
  · exact hk
  next observed hobserved =>
    refine hk.set ⟨fun _ hr => List.mem_cons_of_mem _ ((hk.running run hm).loaded hr), (hk.running run hm).tracked⟩ ?_
    exact List.forall_mem_cons.mpr ⟨(hl.observe hk.store hobserved).2, hk.fits run hm⟩

omit hl in
theorem honest_start (attempt : Nat) : Honest ({ attempt } : Running δ) := ⟨List.nil_subset _, nofun⟩

theorem Kept.commit (hk : s.Kept inv fits) (hi : s.running[i]? = some run)
    (hcalm : s.Calm backend serialize fits allowed harmless (.commit i)) :
    (s.commit backend serialize i run).Kept inv fits := by
  have hmem := List.mem_of_getElem? hi
  obtain ⟨hcommitted, hrefused⟩ := commitEntries_spec hl serialize hk.store (hk.fits run hmem) (hk.running run hmem)
  unfold System.commit
  generalize commitEntries backend serialize s.store run.state = result at hcommitted hrefused ⊢
  obtain ⟨outcome, store⟩ := result
  cases outcome with
  | committed =>
    obtain ⟨request, hsent, hnodup, -, hstore⟩ := hcommitted rfl
    have hwrites : s.writes serialize (.commit i) = request.mutations := by
      simp only [writes, hi, Option.bind_some, hsent, Option.map_some, Option.getD_some]
    obtain ⟨hallowed, hharmless, -⟩ := hcalm
    rw [hwrites] at hallowed hharmless
    exact Kept.write hl hk hnodup hallowed hstore rfl fun other ho => ⟨List.mem_of_mem_eraseIdx ho, hharmless other ho⟩
  | conflict condition =>
    cases hrefused nofun
    dsimp only
    split
    · exact hk.finish i .conflict
    · exact hk.set (honest_start _) nofun
  | failed =>
    cases hrefused nofun
    exact hk.finish i .err

/-- A plain write is made, or refused. -/
theorem Kept.plain (hk : s.Kept inv fits) {mutation : TransactionMutation} {store : σ}
    (hstore : store = apply s.store [mutation] ∨ store = s.store) (hallowed : allowed s.store [mutation])
    (hharmless : ∀ run ∈ s.running, ∀ read ∈ run.loaded, harmless [mutation] read.1 read.2) :
    Kept inv fits { s with store } := by
  rcases hstore with rfl | rfl
  · have hnodup : ([mutation].map TransactionMutation.key).Nodup := List.nodup_singleton _
    exact Kept.write hl hk hnodup hallowed rfl rfl fun run hm => ⟨hm, hharmless run hm⟩
  · exact hk

theorem Kept.step (hk : s.Kept inv fits) (hcalm : s.Calm backend serialize fits allowed harmless action)
    (h : s.step backend keyOf serialize action = some t) : t.Kept inv fits := by
  cases action with
  | begin =>
    cases h
    refine hk.same rfl hk.working fun run hm => ?_
    rcases List.mem_append.mp hm with hm | hm
    · exact .inl hm
    · rw [List.mem_singleton.mp hm]
      exact .inr ⟨honest_start 0, nofun⟩
  | load i key =>
    obtain ⟨run, hi, rfl⟩ := Option.map_eq_some_iff.mp h
    exact hk.load hl (List.mem_of_getElem? hi) key
  | call i call =>
    obtain ⟨run, hi, h⟩ := Option.bind_eq_some_iff.mp h
    obtain ⟨hloaded, h⟩ := Option.ite_none_right_eq_some.mp h
    obtain ⟨state, hstate, rfl⟩ := Option.map_eq_some_iff.mp h
    have hmem := List.mem_of_getElem? hi
    exact hk.set ((hk.running run hmem).call hloaded hstate) (hk.fits run hmem)
  | commit i =>
    obtain ⟨run, hi, rfl⟩ := Option.map_eq_some_iff.mp h
    exact hk.commit hl hi hcalm
  | cancel i | abandon i =>
    cases (Option.ite_none_right_eq_some.mp h).2
    exact hk.finish i _
  | put key data =>
    cases h
    exact hk.plain hl (hl.put key data hk.store) hcalm.allowed hcalm.harmless
  | delete key =>
    cases h
    exact hk.plain hl (hl.delete key hk.store) hcalm.allowed hcalm.harmless
  | transaction =>
    obtain ⟨write, -, rfl⟩ := Option.map_eq_some_iff.mp h
    refine hk.same rfl (fun working hm => ?_) fun _ hm => .inl hm
    rcases List.mem_append.mp hm with hm | hm
    · exact hk.working working hm
    · rw [List.mem_singleton.mp hm]
      exact hk.store
  | change i mutation =>
    obtain ⟨write, hwrite, h⟩ := Option.bind_eq_some_iff.mp h
    obtain ⟨copy, hi, rfl⟩ := Option.map_eq_some_iff.mp h
    refine hk.same rfl (fun working hm => ?_) fun _ hm => .inl hm
    rcases List.mem_or_eq_of_mem_set hm with hm | rfl
    · exact hk.working working hm
    · exact hl.working hwrite (hk.working copy (List.mem_of_getElem? hi))
  | publish i =>
    obtain ⟨write, hwrite, h⟩ := Option.bind_eq_some_iff.mp h
    obtain ⟨copy, hi, rfl⟩ := Option.map_eq_some_iff.mp h
    exact ⟨hk.working copy (List.mem_of_getElem? hi), fun working hm => hk.working working
      (List.mem_of_mem_eraseIdx hm),
      hk.running, hcalm.published copy (Option.bind_eq_some_iff.mpr ⟨write, hwrite, hi⟩)⟩
  | rollback i =>
    cases (Option.ite_none_right_eq_some.mp h).2
    exact hk.same rfl (fun working hm => hk.working working (List.mem_of_mem_eraseIdx hm)) fun _ hm => .inl hm

omit hl in
theorem store_commit (s : System σ δ) (i : Nat) (run : Running δ) :
    (s.commit backend serialize i run).store = (commitEntries backend serialize s.store run.state).2 := by
  simp only [System.commit]
  split
  · rfl
  · split <;> rfl
  · rfl

omit hl in
/-- A step that leaves the store alone and is no commit. -/
theorem Serial.of_store (hstore : t.store = s.store) (hnot : s.committing backend serialize action = none) :
    Serial backend serialize s action t :=
  ⟨fun _ h => (nomatch hnot.symm.trans h), fun _ h => (nomatch hnot.symm.trans h), fun _ _ => hstore⟩

theorem Kept.serial (hk : s.Kept inv fits) (h : s.step backend keyOf serialize action = some t) :
    Serial backend serialize s action t := by
  cases action with
  | commit i =>
    obtain ⟨run, hi, rfl⟩ := Option.map_eq_some_iff.mp h
    have hmem := List.mem_of_getElem? hi
    obtain ⟨hcommitted, hrefused⟩ := commitEntries_spec hl serialize hk.store (hk.fits run hmem) (hk.running run hmem)
    have hwho : s.committing backend serialize (.commit i) =
        some (run, (commitEntries backend serialize s.store run.state).1) := by
      simp only [committing, hi, Option.map_some]
    refine ⟨fun other ho => ?_, fun other ho => ?_, fun _ hnot => ?_⟩
    · obtain ⟨rfl, hresult⟩ := Prod.mk.inj (Option.some.inj (hwho.symm.trans ho))
      obtain ⟨-, -, -, hunchanged, -⟩ := hcommitted hresult
      exact hunchanged
    · obtain ⟨rfl, hresult⟩ := Prod.mk.inj (Option.some.inj (hwho.symm.trans ho))
      obtain ⟨request, hsent, hnodup, -, hstore⟩ := hcommitted hresult
      refine ⟨request, hsent, fun key => ?_⟩
      rw [store_commit, hstore]
      exact hl.get_apply key hnodup
    · rw [store_commit]
      exact hrefused fun hresult => hnot run (hresult ▸ hwho)
  | put | delete | publish => exact ⟨nofun, nofun, nofun⟩
  | begin =>
    cases h
    exact .of_store rfl rfl
  | load i key =>
    obtain ⟨run, -, rfl⟩ := Option.map_eq_some_iff.mp h
    refine .of_store ?_ rfl
    unfold System.load
    split <;> rfl
  | call i call =>
    obtain ⟨run, -, h⟩ := Option.bind_eq_some_iff.mp h
    obtain ⟨state, -, rfl⟩ := Option.map_eq_some_iff.mp (Option.ite_none_right_eq_some.mp h).2
    exact .of_store rfl rfl
  | cancel | abandon | rollback =>
    cases (Option.ite_none_right_eq_some.mp h).2
    exact .of_store rfl rfl
  | transaction =>
    obtain ⟨write, -, rfl⟩ := Option.map_eq_some_iff.mp h
    exact .of_store rfl rfl
  | change =>
    obtain ⟨write, -, h⟩ := Option.bind_eq_some_iff.mp h
    obtain ⟨copy, -, rfl⟩ := Option.map_eq_some_iff.mp h
    exact .of_store rfl rfl

/-- **Serializability** of runs on a backend that validates. -/
theorem serial_of_lawful {start : σ} (hstart : inv start)
    (h : Steps.Reach (step backend keyOf serialize) (Calm backend serialize fits allowed harmless) { store := start } s)
    (hstep : s.step backend keyOf serialize action = some t) : Serial backend serialize s action t := by
  have hk : s.Kept inv fits := h.invariant (P := fun s => s.Kept inv fits) ⟨hstart, nofun, nofun, nofun⟩
    fun s action t hk hcalm hstep => hk.step hl hcalm hstep
  exact hk.serial hl hstep

end Lawful

end System

/-! ## Memory and Turso -/

namespace Memory

def Allowed (store : Store) (mutations : List TransactionMutation) : Prop :=
  ∀ mutation ∈ mutations, ∀ doc ∈ store[mutation.key]?, doc.version < maxI64

def Harmless (mutations : List TransactionMutation) (key : DocumentKey) (observed : ObservedDocument) : Prop :=
  System.content observed ≠ none → .delete key ∉ mutations

def Holds (store : Store) : TransactionCondition → Prop
  | .revisionEquals key revision => ∃ doc, store[key]? = some doc ∧ doc.version = revision
  | .exists key => store[key]? ≠ none
  | .notExists key => store[key]? = none

theorem observe {store : Store} {key : DocumentKey} {observed : ObservedDocument}
    (h : getObserved store key = .ok observed) :
    get store key = System.content observed ∧ Fits store key observed := by
  unfold getObserved at h
  unfold get
  split at h
  next doc hdoc =>
    unfold revisionFromBackend at h
    split at h
    next revision hrevision =>
      cases h
      split at hrevision
      · cases hrevision
      next hnonneg =>
        cases hrevision
        exact ⟨by rw [hdoc]; rfl, doc, hdoc, by omega, fun _ => rfl⟩
    · cases h
  next hnone =>
    cases h
    exact ⟨by rw [hnone]; rfl, rfl⟩

theorem check {store : Store} {key : DocumentKey} {observed : ObservedDocument} (hfits : Fits store key observed)
    (h : Holds store (conditionOf key observed)) : get store key = System.content observed := by
  unfold get
  match observed with
  | .present data revision =>
    obtain ⟨doc, hdoc, -, hdata⟩ := hfits
    obtain ⟨doc', hdoc', hversion⟩ := h
    cases hdoc.symm.trans hdoc'
    rw [hdoc]
    exact congrArg some (hdata hversion)
  | .missing none =>
    have hnone : store[key]? = none := h
    rw [hnone]
    rfl
  | .missing (some _) => cases hfits

/-- A rule for the version of a document that is put over another one: it grows while it fits. -/
structure Counts (next : Int → Int) : Prop where
  grows : ∀ version, version < maxI64 → next version = version + 1

/-- The writes of a transaction, one after the other. -/
def write (next : Int → Int) (store : Store) : TransactionMutation → Store
  | .put key data => store.insert key ⟨data, (store[key]?.map fun doc => next doc.version).getD 0⟩
  | .delete key => store.erase key

theorem getElem?_erase (store : Store) (key other : DocumentKey) :
    (store.erase key)[other]? = if key = other then none else store[other]? := by
  rw [Std.ExtTreeMap.getElem?_erase]
  simp only [compare_eq_iff_eq]

/-- What one write makes of a key. -/
theorem getElem?_write (next : Int → Int) (store : Store) (mutation : TransactionMutation) (key : DocumentKey) :
    (write next store mutation)[key]? = if mutation.key = key then
      (match mutation with
      | .put _ data => some ⟨data, (store[key]?.map fun doc => next doc.version).getD 0⟩
      | .delete _ => none) else store[key]? := by
  cases mutation with
  | put other data =>
    by_cases heq : other = key
    · subst heq
      simp [write, TransactionMutation.key]
    · simp [write, TransactionMutation.key, OrdMap.getElem?_insert, heq]
  | delete other => by_cases heq : other = key <;> simp [write, TransactionMutation.key, getElem?_erase, heq]

/-- The writes of distinct keys do not meet. -/
theorem getElem?_writes (next : Int → Int) (store : Store) {mutations : List TransactionMutation} (key : DocumentKey)
    (h : (mutations.map TransactionMutation.key).Nodup) :
    (mutations.foldl (write next) store)[key]? =
      ((mutations.find? (·.key = key)).map fun mutation => (write next store mutation)[key]?).getD store[key]? := by
  refine OrdMap.look_foldl (fun store : Store => store[key]?) key (fun store mutation hne => ?_)
    (fun store store' mutation hsame => ?_) h store
  · rw [getElem?_write, if_neg hne]
  · rw [getElem?_write, getElem?_write, hsame]

theorem get_writes (next : Int → Int) {store : Store} {mutations : List TransactionMutation} (key : DocumentKey)
    (h : (mutations.map TransactionMutation.key).Nodup) :
    get (mutations.foldl (write next) store) key = (System.written mutations key).getD (get store key) := by
  rw [get, getElem?_writes next store key h, System.written, get]
  cases hfind : mutations.find? (·.key = key) with
  | none => rfl
  | some mutation =>
    have hkey : mutation.key = key := by simpa using List.find?_some hfind
    simp only [Option.map_some, Option.getD_some, getElem?_write, if_pos hkey]
    cases mutation <;> rfl

theorem fits_write {next : Int → Int} (hn : Counts next) {store : Store} {mutation : TransactionMutation}
    {key : DocumentKey}
    {observed : ObservedDocument} (hallowed : ∀ doc ∈ store[mutation.key]?, doc.version < maxI64)
    (hharmless : System.content observed ≠ none → mutation ≠ .delete key) (h : Fits store key observed) :
    Fits (write next store mutation) key observed := by
  match observed with
  | .missing revision => exact h
  | .present data revision =>
    obtain ⟨doc, hdoc, hle, hdata⟩ := h
    by_cases heq : mutation.key = key
    · cases mutation with
      | delete other =>
        cases (show other = key from heq)
        exact absurd rfl (hharmless nofun)
      | put other data' =>
        cases (show other = key from heq)
        have hlt := hallowed doc hdoc
        refine ⟨_, (getElem?_write ..).trans (if_pos rfl), ?_, fun hversion => ?_⟩
        · simp only [hdoc, Option.map_some, Option.getD_some, hn.grows _ hlt]
          omega
        · simp only [hdoc, Option.map_some, Option.getD_some, hn.grows _ hlt] at hversion
          omega
    · exact ⟨doc, by rw [getElem?_write, if_neg heq, hdoc], hle, hdata⟩

theorem fits_writes {next : Int → Int} (hn : Counts next) {store : Store} {mutations : List TransactionMutation}
    {key : DocumentKey}
    {observed : ObservedDocument} (hnodup : (mutations.map TransactionMutation.key).Nodup)
    (hallowed : Allowed store mutations)
    (hharmless : Harmless mutations key observed) (h : Fits store key observed) :
    Fits (mutations.foldl (write next) store) key observed := by
  induction mutations generalizing store with
  | nil => exact h
  | cons mutation mutations ih =>
    rw [List.map_cons, List.nodup_cons] at hnodup
    refine ih hnodup.2 (fun other hm doc hdoc => ?_) (fun hc hm => hharmless hc (List.mem_cons_of_mem _ hm)) ?_
    · rw [getElem?_write, if_neg fun heq => hnodup.1 (List.mem_map.mpr ⟨other, hm, heq.symm⟩)] at hdoc
      exact hallowed other (List.mem_cons_of_mem _ hm) doc hdoc
    · exact fits_write hn (hallowed mutation List.mem_cons_self)
        (fun hc heq => hharmless hc (heq ▸ List.mem_cons_self)) h

theorem holds_of_conditionHolds {store : Store} {condition : TransactionCondition}
    (h : conditionHolds store condition = .ok true) : Holds store condition := by
  cases condition with
  | revisionEquals key expectedRevision =>
    simp only [conditionHolds] at h
    split at h
    · cases h
    next doc hdoc =>
      unfold revisionFromBackend at h
      split at h
      next revision hrevision =>
        split at hrevision
        · cases hrevision
        next hnonneg =>
          cases hrevision
          have heq : doc.version.toNat = expectedRevision := by simpa using h
          exact ⟨doc, hdoc, by omega⟩
      · cases h
  | «exists» key => simpa [conditionHolds, Holds, Option.isSome_iff_ne_none] using h
  | notExists key => simpa [conditionHolds, Holds] using h

theorem stage_eq {store staged : Store} {mutations : List TransactionMutation}
    (h : stage store mutations = .ok staged) :
    staged = mutations.foldl (write nextVersion) store := by
  induction mutations generalizing store with
  | nil => cases h; rfl
  | cons mutation mutations ih =>
    cases mutation with
    | delete key => exact ih h
    | put key data =>
      simp only [stage] at h
      rw [List.foldl_cons]
      split at h
      next hnone =>
        rw [ih h]
        simp only [write, hnone, Option.map_none, Option.getD_none]
      next doc hdoc =>
        split at h
        · cases h
        next hne =>
          rw [ih h]
          simp only [write, hdoc, Option.map_some, Option.getD_some, nextVersion, if_neg hne]

theorem counts_nextVersion : Counts nextVersion :=
  ⟨fun version hlt => by rw [nextVersion, if_neg (by omega)]⟩

end Memory

theorem firstFailing_none {holds : TransactionCondition → Except BackendError Bool}
    {conditions : List TransactionCondition}
    {i : Nat} (h : firstFailing holds i conditions = .ok none) :
      ∀ condition ∈ conditions, holds condition = .ok true := by
  induction conditions generalizing i with
  | nil => nofun
  | cons condition conditions ih =>
    rw [firstFailing] at h
    split at h
    · cases h
    next hholds => exact List.forall_mem_cons.mpr ⟨hholds, ih h⟩
    · cases h

theorem lawful_memory : Lawful memoryDatabase (fun _ => True) Memory.Fits
    (fun store mutations => mutations.foldl (Memory.write Memory.nextVersion) store) Memory.Holds Memory.Allowed
    Memory.Harmless where
  put _ _ _ := .inl rfl
  delete _ _ := .inl rfl
  working _ _ := trivial
  nothing _ := rfl
  observe _ h := Memory.observe h
  inv_apply _ := trivial
  fits_apply _ hnodup hallowed hharmless h := Memory.fits_writes Memory.counts_nextVersion hnodup hallowed hharmless h
  check _ hfits h := Memory.check hfits h
  get_apply key h := Memory.get_writes Memory.nextVersion key h
  committed := by
    intro store staged request _ h
    simp only [memoryDatabase, Memory.transact] at h
    split at h
    · cases h
    · cases h
    next hconditions =>
      refine ⟨fun condition hm => Memory.holds_of_conditionHolds (firstFailing_none hconditions condition hm), ?_⟩
      split at h
      next hempty =>
        cases h
        rw [hempty]
        rfl
      next =>
        split at h <;> cases h
        exact Memory.stage_eq ‹_›
  refused := by
    intro store staged request result _ h hne
    simp only [memoryDatabase, Memory.transact] at h
    split at h
    · cases h; rfl
    · cases h; rfl
    · split at h
      · cases h; rfl
      · split at h <;> cases h
        · rfl
        · exact absurd rfl hne

namespace Turso

theorem holds_of_conditionHolds {table : Store} {condition : TransactionCondition}
    (h : conditionHolds table condition = .ok true) : Memory.Holds table condition := by
  cases condition with
  | revisionEquals key expectedRevision =>
    simp only [conditionHolds, revisionToBackend] at h
    split at h
    · cases h
    next expected hexpected =>
      split at hexpected <;> cases hexpected
      have hhead : (selectVersion table key).head? = some (expectedRevision : Int) := by simpa using h
      unfold selectVersion at hhead
      cases hdoc : table[key]? with
      | none => rw [hdoc] at hhead; cases hhead
      | some doc =>
        rw [hdoc] at hhead
        exact ⟨doc, hdoc, Option.some.inj hhead⟩
  | «exists» key =>
    simp only [conditionHolds, selectVersion] at h
    cases hdoc : table[key]? with
    | none => rw [hdoc] at h; cases h
    | some doc => simp [Memory.Holds, hdoc]
  | notExists key =>
    simp only [conditionHolds, selectVersion] at h
    cases hdoc : table[key]? with
    | none => exact hdoc
    | some doc => rw [hdoc] at h; cases h

theorem writeStmt_eq : writeStmt = Memory.write (· + 1) := by
  funext table mutation
  cases mutation <;> rfl

end Turso

theorem lawful_turso : Lawful tursoDatabase (fun _ => True) Memory.Fits
    (fun store mutations => mutations.foldl (Memory.write (· + 1)) store) Memory.Holds Memory.Allowed
      Memory.Harmless where
  put _ _ _ := .inl rfl
  delete _ _ := .inl rfl
  working := nofun
  nothing _ := rfl
  observe _ h := Memory.observe h
  inv_apply _ := trivial
  fits_apply _ hnodup hallowed hharmless h := Memory.fits_writes ⟨fun _ _ => rfl⟩ hnodup hallowed hharmless h
  check _ hfits h := Memory.check hfits h
  get_apply key h := Memory.get_writes (· + 1) key h
  committed := by
    intro table t request _ h
    simp only [tursoDatabase, Turso.transact] at h
    split at h
    next hempty =>
      cases h
      rw [hempty.1, hempty.2]
      exact ⟨nofun, rfl⟩
    next =>
      split at h <;> cases h
      next hconditions =>
        exact ⟨fun condition hm => Turso.holds_of_conditionHolds (firstFailing_none hconditions condition hm),
          by rw [Turso.writeStmt_eq]⟩
  refused := by
    intro table t request result _ h hne
    simp only [tursoDatabase, Turso.transact] at h
    split at h
    · cases h; rfl
    · split at h <;> cases h
      · rfl
      · rfl
      · exact absurd rfl hne

/-! ## Dodb -/

namespace DodbDatabase

variable {limits : Protocol.ProtocolLimits} {tenant : Nat} {db : ReferenceDb} {key : DocumentKey}
  {observed : ObservedDocument} {mutations : List TransactionMutation}

/-- Revisions in use are older than the next one. -/
def Ordered (db : ReferenceDb) : Prop := db.nextLsn ≠ 0 ∧ ∀ key, (db.get key).revision < db.nextLsn

def contentOf : RevisionState → Option Bytes
  | .present value _ => some value
  | .missing _ => none

/-- An observation fits while its revision grows or stays with its content. -/
def Fits (db : ReferenceDb) (key : DocumentKey) (observed : ObservedDocument) : Prop :=
  ∃ revision, System.revisionOf observed = some revision ∧ revision ≤ (db.get key).revision ∧
    ((db.get key).revision = revision → contentOf (db.get key) = System.content observed)

def Holds (db : ReferenceDb) (condition : TransactionCondition) : Prop :=
  condition.satisfied (db.get condition.key).observed = true

/-- The effect of a transaction, which takes the next revision if it writes. -/
def apply (db : ReferenceDb) (mutations : List TransactionMutation) : ReferenceDb :=
  if mutations = [] then db
  else
    let next := mutations.foldl (ReferenceDb.mutate db.nextLsn) db
    { next with nextLsn := max next.nextLsn (db.nextLsn + 1) }

def stateOf (revision : Nat) : TransactionMutation → RevisionState
  | .put _ value => .present value revision
  | .delete _ => .missing revision

theorem get_mutate (revision : Nat) (db : ReferenceDb) (mutation : TransactionMutation) (key : DocumentKey) :
    (db.mutate revision mutation).get key = if mutation.key = key then stateOf revision mutation else db.get key := by
  unfold ReferenceDb.get
  cases mutation with
  | put other value | delete other =>
    simp only [ReferenceDb.mutate, OrdMap.getElem?_insert]
    by_cases heq : other = key <;> simp [TransactionMutation.key, heq, stateOf]

/-- A key is left as it was, or has the state that its mutation gives it. -/
theorem get_mutations (revision : Nat) (db : ReferenceDb) (key : DocumentKey)
    (h : (mutations.map TransactionMutation.key).Nodup) :
    (mutations.foldl (ReferenceDb.mutate revision) db).get key =
      ((mutations.find? (·.key = key)).map (stateOf revision)).getD (db.get key) := by
  rw [OrdMap.look_foldl (fun db : ReferenceDb => db.get key) key (fun db mutation hne => ?_)
    (fun db db' mutation hsame => ?_) h db]
  · cases hfind : mutations.find? (·.key = key) with
    | none => rfl
    | some mutation =>
      have hkey : mutation.key = key := by simpa using List.find?_some hfind
      simp only [Option.map_some, Option.getD_some, get_mutate, if_pos hkey]
  · rw [get_mutate, if_neg hne]
  · rw [get_mutate, get_mutate, hsame]

theorem revision_mutations (revision : Nat) (db : ReferenceDb) (key : DocumentKey)
    (mutations : List TransactionMutation) :
    (mutations.foldl (ReferenceDb.mutate revision) db).get key = db.get key ∨
      ((mutations.foldl (ReferenceDb.mutate revision) db).get key).revision = revision := by
  induction mutations generalizing db with
  | nil => exact .inl rfl
  | cons mutation mutations ih =>
    rw [List.foldl_cons]
    rcases ih (db.mutate revision mutation) with hsame | hnew
    · rw [hsame, get_mutate]
      split
      · exact .inr (by cases mutation <;> rfl)
      · exact .inl rfl
    · exact .inr hnew

theorem get_nextLsn (db : ReferenceDb) (lsn : Nat) (key : DocumentKey) :
    ReferenceDb.get { db with nextLsn := lsn } key = db.get key :=
  rfl

theorem Ordered.apply (h : Ordered db) : Ordered (apply db mutations) := by
  unfold DodbDatabase.apply
  split
  · exact h
  · refine ⟨by dsimp only; omega, fun key => ?_⟩
    rw [get_nextLsn]
    have := h.2 key
    rcases revision_mutations db.nextLsn db key mutations with heq | heq <;> rw [heq] <;> dsimp only <;> omega

theorem Fits.apply (ho : Ordered db) (h : Fits db key observed) : Fits (apply db mutations) key observed := by
  unfold DodbDatabase.apply
  split
  · exact h
  · obtain ⟨revision, hrevision, hle, hcontent⟩ := h
    refine ⟨revision, hrevision, ?_⟩
    rw [get_nextLsn]
    have := ho.2 key
    rcases revision_mutations db.nextLsn db key mutations with heq | heq
    · rw [heq]
      exact ⟨hle, hcontent⟩
    · exact ⟨by omega, fun hsame => by omega⟩

theorem content_eq_contentOf (db : ReferenceDb) (key : DocumentKey) : content db key = contentOf (db.get key) := by
  unfold DodbDatabase.content contentOf
  split <;> simp_all

theorem observe (h : getObserved limits tenant db key = .ok observed) :
    content db key = System.content observed ∧ Fits db key observed := by
  rw [content_eq_contentOf]
  unfold getObserved at h
  unfold Fits
  split at h
  · cases h
  · split at h <;> cases h
    all_goals
      next heq =>
        rw [heq]
        exact ⟨rfl, _, rfl, le_rfl, fun _ => rfl⟩

theorem check (hfits : Fits db key observed) (h : Holds db (conditionOf key observed)) :
    content db key = System.content observed := by
  rw [content_eq_contentOf]
  obtain ⟨revision, hrevision, -, hcontent⟩ := hfits
  refine hcontent ?_
  have hobserved : (db.get key).observed.revision = (db.get key).revision := by cases db.get key <;> rfl
  match observed with
  | .present _ _ | .missing (some _) =>
    cases hrevision
    rw [← hobserved]
    exact of_decide_eq_true h
  | .missing none => cases hrevision

theorem get_apply (key : DocumentKey) (h : (mutations.map TransactionMutation.key).Nodup) :
    content (apply db mutations) key = (System.written mutations key).getD (content db key) := by
  rw [content_eq_contentOf, content_eq_contentOf]
  unfold DodbDatabase.apply
  split
  next hempty =>
    rw [hempty]
    rfl
  next =>
    rw [get_nextLsn, get_mutations _ _ _ h, System.written]
    cases mutations.find? (·.key = key) with
    | none => rfl
    | some mutation => cases mutation <;> rfl

theorem checkCondition_ok {condition : TransactionCondition} (h : db.checkCondition condition = .ok ()) :
    Holds db condition := by
  simp only [ReferenceDb.checkCondition] at h
  split at h
  · cases h
  next hsat => simpa [Holds] using hsat

/-- What the server does: it commits, or it leaves the database as it was. -/
theorem transactAt_cases (ho : Ordered db) (request : TransactionRequest) :
    (∃ lsn, db.transactAt request db.nextLsn = (.ok lsn, apply db request.mutations) ∧
      ∀ condition ∈ request.conditions, Holds db condition) ∨
    ∃ error, db.transactAt request db.nextLsn = (.error error, db) := by
  unfold ReferenceDb.transactAt
  cases request.validate with
  | error error => exact .inr ⟨error, rfl⟩
  | ok =>
    dsimp only
    cases hconditions : request.conditions.forM db.checkCondition with
    | error error => exact .inr ⟨error, rfl⟩
    | ok =>
      have hholds : ∀ condition ∈ request.conditions, Holds db condition := fun condition hm =>
        checkCondition_ok (Except.forM_eq_ok.mp hconditions condition hm)
      dsimp only
      split
      next hempty => exact .inl ⟨none, by rw [apply, if_pos hempty], hholds⟩
      next hsome =>
        rw [if_neg ho.1]
        exact .inl ⟨some db.nextLsn, by rw [apply, if_neg hsome], hholds⟩

theorem write_cases (ho : Ordered db) (request : Request) (mutation : TransactionMutation) :
    (write limits tenant db request mutation).2 = apply db [mutation] ∨
    (write limits tenant db request mutation).2 = db := by
  unfold write
  split
  · exact .inr rfl
  · rcases transactAt_cases ho ⟨[], [mutation]⟩ with ⟨lsn, heq, -⟩ | ⟨error, heq⟩
    · rw [heq]
      exact .inl rfl
    · rw [heq]
      exact .inr rfl

theorem transact_ok {t : ReferenceDb} {request : TransactionRequest}
    (h : transact limits tenant db request = (.ok none, t))
    (ho : Ordered db) :
    (∀ condition ∈ request.conditions, Holds db condition) ∧ t = apply db request.mutations := by
  unfold transact at h
  split at h
  next hempty =>
    cases h
    rw [hempty.1, hempty.2]
    exact ⟨nofun, rfl⟩
  next =>
    split at h
    · cases h
    · rcases transactAt_cases ho request with ⟨lsn, heq, hholds⟩ | ⟨error, heq⟩
      · rw [heq] at h
        cases h
        exact ⟨hholds, rfl⟩
      · rw [heq] at h
        split at h
        next hok => cases hok
        · split at h <;> cases h
        · cases h

theorem transact_refused {t : ReferenceDb} {request : TransactionRequest} {result : Except BackendError TransactOutcome}
    (h : transact limits tenant db request = (result, t)) (hne : result ≠ .ok none) (ho : Ordered db) : t = db := by
  unfold transact at h
  split at h
  · cases h
    rfl
  · split at h
    · cases h
      rfl
    · rcases transactAt_cases ho request with ⟨lsn, heq, -⟩ | ⟨error, heq⟩
      · rw [heq] at h
        cases h
        exact absurd rfl hne
      · rw [heq] at h
        split at h
        next hok => cases hok
        next hconflict =>
          cases hconflict
          split at h <;> cases h <;> rfl
        next hother =>
          cases hother
          cases h
          rfl

end DodbDatabase

theorem lawful_dodb (limits : Protocol.ProtocolLimits) (tenant : Nat) :
    Lawful (dodbDatabase limits tenant) DodbDatabase.Ordered DodbDatabase.Fits DodbDatabase.apply DodbDatabase.Holds
      (fun _ _ => True) (fun _ _ _ => True) where
  put key data ho := DodbDatabase.write_cases ho (.put key data) (.put key data)
  delete key ho := DodbDatabase.write_cases ho (.delete key) (.delete key)
  working := nofun
  nothing _ := rfl
  observe _ h := DodbDatabase.observe h
  inv_apply h := h.apply
  fits_apply ho _ _ _ h := h.apply ho
  check _ hfits h := DodbDatabase.check hfits h
  get_apply key h := DodbDatabase.get_apply key h
  committed ho h := DodbDatabase.transact_ok h ho
  refused ho h hne := DodbDatabase.transact_refused h hne ho

/-! ## Runs -/

namespace System

variable {δ : Type}

theorem sparing_calm {backend : Backend Store} {serialize : δ → Except String Bytes} {s : System Store δ}
    {action : Action δ}
    (h : s.Sparing backend serialize action) :
    s.Calm backend serialize Memory.Fits Memory.Allowed Memory.Harmless action :=
  ⟨h.2.1, fun run hm read hr => h.1 run hm read hr, h.2.2⟩

/-- Dodb allows everything, and has no copies to publish. -/
theorem calm_dodb (limits : Protocol.ProtocolLimits) (tenant : Nat) (serialize : δ → Except String Bytes)
    (s : System ReferenceDb δ) (action : Action δ) :
    s.Calm (dodbDatabase limits tenant) serialize DodbDatabase.Fits (fun _ _ => True) (fun _ _ _ => True) action := by
  refine ⟨trivial, fun _ _ _ _ => trivial, fun store hm => ?_⟩
  cases action <;> cases hm

theorem ordered_new : DodbDatabase.Ordered ReferenceDb.new := by
  refine ⟨by decide, fun key => ?_⟩
  simp [ReferenceDb.get, ReferenceDb.new, RevisionState.revision]

/--
**Serializability.** On memory and on Turso in every run in which no document is deleted that another attempt has read,
and no copy of the store is published without it or with an older version of it, and on dodb in every run: a transaction
that returns `Committed` took effect at once, on documents that were what it had read, and no other step of a
transaction has an effect.
-/
theorem trx_serializable (keyOf : δ → DocumentKey) (serialize : δ → Except String Bytes) (action : Action δ) :
    (∀ s t, Steps.Reach (step memoryDatabase keyOf serialize) (Sparing memoryDatabase serialize) { store := ∅ } s →
      s.step memoryDatabase keyOf serialize action = some t → Serial memoryDatabase serialize s action t) ∧
    (∀ s t, Steps.Reach (step tursoDatabase keyOf serialize) (Sparing tursoDatabase serialize) { store := ∅ } s →
      s.step tursoDatabase keyOf serialize action = some t → Serial tursoDatabase serialize s action t) ∧
    ∀ limits tenant s t,
      Steps.Reach (step (dodbDatabase limits tenant) keyOf serialize) (fun _ _ => True) { store := ReferenceDb.new } s →
      s.step (dodbDatabase limits tenant) keyOf serialize action = some t →
        Serial (dodbDatabase limits tenant) serialize s action t := by
  refine ⟨fun s t h hstep => ?_, fun s t h hstep => ?_, fun limits tenant s t h hstep => ?_⟩
  · exact serial_of_lawful lawful_memory trivial (h.mono fun _ _ => sparing_calm) hstep
  · exact serial_of_lawful lawful_turso trivial (h.mono fun _ _ => sparing_calm) hstep
  · exact serial_of_lawful (lawful_dodb limits tenant) ordered_new
      (h.mono fun s action _ => calm_dodb limits tenant serialize s action) hstep

/-! ## Documents that are pairs of their key and their bytes -/

section Plain

open Attempt (Plain)

def plainBytes (doc : Plain) : Except String Bytes := .ok doc.2

/-- The key `a`/`b`. -/
def exampleKey : DocumentKey := ⟨[97], [98]⟩

/-- The document of the key is asked for, and was loaded with this observation. -/
def fetch (trx : Nat) (observed : ObservedDocument) : List (Action Plain) :=
  [.load trx exampleKey, .call trx (.get [⟨exampleKey, observed, fun data => .ok (exampleKey, data)⟩] none)]

/-- The document of the key is changed and its handle dropped. -/
def modify (trx : Nat) (data : Bytes) : List (Action Plain) :=
  [.call trx (.write 0 (exampleKey, data)), .call trx (.drop 0)]

/--
A counter is read and put back beside a transaction that only reads it, after an explicit transaction has set it. The
counter is asked for a second time, and the error ignored.
-/
theorem counter_serial : ∃ s t : System Store Plain, ∃ action, s.step memoryDatabase Prod.fst plainBytes
    action = some t ∧
    memoryDatabase.content t.store exampleKey = some [2] ∧ Serial memoryDatabase plainBytes s action t := by
  have hrun : ∃ s : System Store Plain,
      Steps.Reach (step memoryDatabase Prod.fst plainBytes) (Sparing memoryDatabase plainBytes) { store := ∅ } s ∧
      decide ((s.step memoryDatabase Prod.fst plainBytes (.commit 0)).map
        (fun t => memoryDatabase.content t.store exampleKey) = some (some [2])) = true :=
    Steps.exists_reach ([.put exampleKey [0], .begin, .transaction, .change 0 (.put exampleKey [1]), .publish 0] ++
      fetch 0 (.present [1] 1) ++ fetch 0 (.present [1] 1) ++ [.begin] ++ fetch 1 (.present [1] 1) ++ modify 0 [2])
      (by decide +kernel)
  obtain ⟨s, hreach, hs⟩ := hrun
  obtain ⟨t, hstep, ht⟩ := Option.map_eq_some_iff.mp (of_decide_eq_true hs)
  exact ⟨s, t, _, hstep, ht, (trx_serializable Prod.fst plainBytes _).1 s t hreach hstep⟩

/-- The first transaction commits although a document is no longer what it read. -/
def stale (backend : Backend Store) (s : System Store Plain) : Bool :=
  (s.step backend Prod.fst plainBytes (.commit 0)).isSome &&
    (s.committing backend plainBytes (.commit 0)).any fun c =>
      c.2 = .committed ∧ c.1.reads.any fun read => backend.content s.store read.1 ≠ content read.2

theorem not_serial_of_stale {backend : Backend Store} {s : System Store Plain} (h : stale backend s = true) :
    ∃ action t, s.step backend Prod.fst plainBytes action = some t ∧ ¬ Serial backend plainBytes s action t := by
  unfold stale at h
  rw [Bool.and_eq_true] at h
  obtain ⟨t, hstep⟩ := Option.isSome_iff_exists.mp h.1
  refine ⟨_, t, hstep, fun hserial => ?_⟩
  obtain ⟨⟨run, result⟩, hcommitting, hstale⟩ := Steps.exists_of_any h.2
  obtain ⟨rfl, hany⟩ := of_decide_eq_true hstale
  obtain ⟨read, hr, hne⟩ := List.any_eq_true.mp hany
  exact of_decide_eq_true hne (hserial.unchanged run hcommitting read hr)

/-- A document is read, deleted and created again with other data, and gets the version it had. -/
def recreation : List (Action Plain) :=
  [.put exampleKey [1], .begin] ++ fetch 0 (.present [1] 0) ++ [.delete exampleKey, .put exampleKey [2]] ++ modify 0 [3]

/-- On memory and on Turso the transaction that read it commits over data that it never saw. -/
theorem recreated_document_overwritten :
    (∃ s action t, Steps.Reach (step memoryDatabase Prod.fst plainBytes) (fun _ _ => True) { store := ∅ } s ∧
      s.step memoryDatabase Prod.fst plainBytes action = some t ∧ ¬ Serial memoryDatabase plainBytes s action t) ∧
    ∃ s action t, Steps.Reach (step tursoDatabase Prod.fst plainBytes) (fun _ _ => True) { store := ∅ } s ∧
      s.step tursoDatabase Prod.fst plainBytes action = some t ∧ ¬ Serial tursoDatabase plainBytes s action t := by
  have hmemory : ∃ s : System Store Plain,
      Steps.Reach (step memoryDatabase Prod.fst plainBytes) (fun _ _ => True) { store := ∅ } s ∧
        stale memoryDatabase s = true :=
    Steps.exists_reach recreation (by decide +kernel)
  have hturso : ∃ s : System Store Plain,
      Steps.Reach (step tursoDatabase Prod.fst plainBytes) (fun _ _ => True) { store := ∅ } s ∧
        stale tursoDatabase s = true :=
    Steps.exists_reach recreation (by decide +kernel)
  obtain ⟨s, hreach, hs⟩ := hmemory
  obtain ⟨u, hreach', hu⟩ := hturso
  obtain ⟨action, t, hstep, hnot⟩ := not_serial_of_stale hs
  obtain ⟨action', v, hstep', hnot'⟩ := not_serial_of_stale hu
  exact ⟨⟨s, action, t, hreach, hstep, hnot⟩, u, action', v, hreach', hstep', hnot'⟩

/-- On memory an explicit transaction that was opened before does the same without a deletion. -/
theorem published_copy_overwritten :
    ∃ s action t, Steps.Reach (step memoryDatabase Prod.fst plainBytes) (fun _ _ => True) { store := ∅ } s ∧
      s.step memoryDatabase Prod.fst plainBytes action = some t ∧ ¬ Serial memoryDatabase plainBytes s action t := by
  have hrun : ∃ s : System Store Plain,
      Steps.Reach (step memoryDatabase Prod.fst plainBytes) (fun _ _ => True) { store := ∅ } s ∧
        stale memoryDatabase s = true :=
    Steps.exists_reach ([.put exampleKey [0], .transaction, .change 0 (.put exampleKey [2]),
      .put exampleKey [1], .begin] ++
      fetch 0 (.present [1] 1) ++ [.publish 0] ++ modify 0 [3]) (by decide +kernel)
  obtain ⟨s, hreach, hs⟩ := hrun
  obtain ⟨action, t, hstep, hnot⟩ := not_serial_of_stale hs
  exact ⟨s, action, t, hreach, hstep, hnot⟩

end Plain

end System

end DocDb
