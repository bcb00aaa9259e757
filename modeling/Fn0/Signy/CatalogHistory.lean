/-
Any number of handles on one catalog.

The calls of the handles interleave one by one. A handle may pause between two calls for as long as it likes, or never
go on. Beside the bucket stands what was answered with success, in the order of the answers.
-/
import Mathlib
import Fn0.Lib.Steps
import Fn0.Signy.CatalogSpecs

namespace Signy

/-- What was answered with success: a commit, a claim, or a load that began after a number of answers. -/
inductive Answered
  | committed (mutation : CatalogMutation) (committed : Committed)
  | claimed (committed : Committed)
  | loaded (before : Nat) (state : CatalogState)

/-- The answer to a call that changed the catalog. -/
def Answered.change : Answered → Option Committed
  | committed _ c | claimed c => if c.ending = .applied then some c else none
  | loaded .. => none

/-- A call of a handle that has not ended. -/
structure FleetTask where
  handle : Nat
  rest : CatalogM (Option Answered)

structure Fleet where
  site : Site := {}
  tasks : List FleetTask := []
  answers : List Answered := []

namespace Fleet

inductive Request
  | commit (mutation : CatalogMutation)
  | claim (transactionId : String)
  | load
  | prune

inductive Action
  | join
  | begin (handle : Nat) (request : Request)
  | proceed (task : Nat) (reply : Reply)
  | stop (task : Nat)

/-- The program of a request. A load of a handle with a cached state returns that state, which is nothing to record. -/
def program (sha : Sha) (s : Fleet) (h : Nat) : Request → CatalogM (Option Answered)
  | .commit mutation => do pure (some (.committed mutation (← commitCatalogMutation sha mutation)))
  | .claim transactionId => do pure (some (.claimed (← claimWriterEpoch sha transactionId)))
  | .load =>
    match (s.site.handle h).cache with
    | some _ => pure none
    | none => do pure (some (.loaded s.answers.length (← freshCatalogState sha)))
  | .prune => do
    let _ ← pruneCatalog sha
    pure none

def begin (sha : Sha) (s : Fleet) (h : Nat) (request : Request) : Fleet :=
  { s with tasks := s.tasks ++ [⟨h, s.program sha h request⟩] }

/-- One call of a task, or its end. -/
def proceed (s : Fleet) (i : Nat) (reply : Reply) (task : FleetTask) : Fleet :=
  match task.rest with
  | .done answer => { s with tasks := s.tasks.eraseIdx i, answers := s.answers ++ answer.toList }
  | .fail _ => { s with tasks := s.tasks.eraseIdx i }
  | .call op next =>
    { s with
      site := (s.site.perform task.handle reply op).2
      tasks := s.tasks.set i ⟨task.handle, next (s.site.perform task.handle reply op).1⟩ }

def step (sha : Sha) (s : Fleet) : Action → Option Fleet
  | .join => some { s with site := { s.site with handles := s.site.handles ++ [{}] } }
  | .begin h request => if h < s.site.handles.length then some (s.begin sha h request) else none
  | .proceed i reply => s.tasks[i]?.map (s.proceed i reply)
  | .stop i => some { s with tasks := s.tasks.eraseIdx i }

/-- The next call of the task takes no generation again that was deleted. -/
def Calm (s : Fleet) : Action → Prop
  | .proceed i _ => ∀ task ∈ s.tasks[i]?,
    match task.rest with
    | .call op _ => s.site.Calm op
    | _ => True
  | _ => True

instance (s : Fleet) (action : Action) : Decidable (s.Calm action) := by
  unfold Calm
  split
  · have (task : FleetTask) : Decidable (match task.rest with | .call op _ => s.site.Calm op | _ => True) := by
      split <;> infer_instance
    infer_instance
  · infer_instance

end Fleet

/-! ## One history -/

/-- What an answer says about the chain, and about the answers that were given before its call began. -/
def Answered.Sound (answers : List Answered) (chain : List CatalogCommit) : Answered → Prop
  | committed mutation c => c.Sound chain mutation
  | claimed c => ∃ mutation : CatalogMutation, mutation.claimWriter = true ∧ c.Sound chain mutation
  | loaded before state => Reaches chain state ∧ before ≤ answers.length ∧
      ∀ earlier ∈ answers.take before, ∀ c, earlier.change = some c → c.state.generation ≤ state.generation

theorem Answered.Sound.grow {answers m : List Answered} {chain chain' : List CatalogCommit} {answer : Answered}
    (hs : answer.Sound answers chain) (hgrow : chain <+: chain') : answer.Sound (answers ++ m) chain' := by
  cases answer with
  | committed mutation c => exact Committed.Sound.grow hs hgrow
  | claimed c =>
    obtain ⟨mutation, hm, hs⟩ := hs
    exact ⟨mutation, hm, hs.grow hgrow⟩
  | loaded before state =>
    obtain ⟨hr, hle, hall⟩ := hs
    refine ⟨hr.grow hgrow, by rw [List.length_append]; omega, ?_⟩
    rwa [List.take_append_of_le_length hle]

theorem Answered.Sound.of_change {answers : List Answered} {chain : List CatalogCommit} {answer : Answered}
    {c : Committed}
    (hs : answer.Sound answers chain) (hc : answer.change = some c) :
    c.ending = .applied ∧ ∃ mutation, c.Sound chain mutation := by
  cases answer with
  | committed mutation c' =>
    simp only [change, Option.ite_none_right_eq_some, Option.some.injEq] at hc
    obtain ⟨he, rfl⟩ := hc
    exact ⟨he, mutation, hs⟩
  | claimed c' =>
    simp only [change, Option.ite_none_right_eq_some, Option.some.injEq] at hc
    obtain ⟨he, rfl⟩ := hc
    obtain ⟨mutation, -, hs⟩ := hs
    exact ⟨he, mutation, hs⟩
  | loaded => cases hc

namespace Fleet

variable {sha : Sha} {s t : Fleet}

/-- The chain is kept, every answer tells the truth, and so will every task that runs. -/
structure Sound (sha : Sha) (s : Fleet) : Prop where
  linear : s.site.Linear sha
  answers : ∀ answer ∈ s.answers, answer.Sound s.answers s.site.chain
  tasks : ∀ task ∈ s.tasks, Gives sha task.handle task.rest
    (fun o site => ∀ answer, o = some answer → answer.Sound s.answers site.chain) s.site

theorem sound_empty : Sound sha {} where
  linear := ⟨⟨{}, rfl⟩, fun r g o ho => by cases r <;> simp [Bucket.of] at ho,
    fun r g o ho => by cases r <;> simp [Bucket.of] at ho, fun g h0 hle => absurd hle (Nat.not_le.mpr h0), nofun,
    fun h state hst => by simp [Site.handle] at hst⟩
  answers := nofun
  tasks := nofun

/-- The programs of the requests answer truthfully. -/
theorem Sound.program (hs : s.Sound sha) (h : Nat) (request : Request) :
    Gives sha h (s.program sha h request) (fun o site => ∀ answer, o = some answer → answer.Sound s.answers site.chain)
      s.site := by
  cases request with
  | commit mutation =>
    refine gives_commitCatalogMutation.bind fun c t _ _ hc => Calls.gives_pure fun u hu _ answer ha => ?_
    cases ha
    exact hc.grow hu
  | claim transactionId =>
    refine gives_claimWriterEpoch.bind fun c t _ _ hc => Calls.gives_pure fun u hu _ answer ha => ?_
    cases ha
    obtain ⟨mutation, hm, hc⟩ := hc
    exact ⟨mutation, hm, hc.grow hu⟩
  | load =>
    unfold Fleet.program
    dsimp only
    split
    · exact Calls.gives_pure fun _ _ _ => nofun
    · refine (gives_freshCatalogState le_rfl).bind fun state t _ _ hr => Calls.gives_pure fun u hu _ answer ha => ?_
      cases ha
      refine ⟨hr.1.grow hu, le_rfl, fun earlier hearlier c hc => ?_⟩
      rw [List.take_length] at hearlier
      obtain ⟨-, mutation, hsound⟩ := (hs.answers earlier hearlier).of_change hc
      exact hsound.1.le.trans hr.2
  | prune => exact gives_prune.bind fun _ _ _ _ _ => Calls.gives_pure fun _ _ _ => nofun

/-- An answer that is added says something about the answers before it. -/
theorem Sound.answer (hs : s.Sound sha) {tasks : List FleetTask} (hsub : ∀ task ∈ tasks, task ∈ s.tasks)
    {answer : Option Answered} (ha : ∀ a, answer = some a → a.Sound s.answers s.site.chain) :
    Sound sha { s with tasks, answers := s.answers ++ answer.toList } where
  linear := hs.linear
  answers := by
    intro a hm
    rcases List.mem_append.mp hm with hm | hm
    · exact (hs.answers a hm).grow List.prefix_rfl
    · exact (ha a (by simpa using hm)).grow List.prefix_rfl
  tasks := fun task hm => (hs.tasks task (hsub task hm)).mono fun _ _ _ _ h a heq => (h a heq).grow List.prefix_rfl

theorem Sound.step (hs : s.Sound sha) {action : Action} (hcalm : s.Calm action) (hstep : s.step sha action = some t) :
    t.Sound sha := by
  cases action with
  | join =>
    cases hstep
    refine ⟨⟨hs.linear.folds, hs.linear.commits, hs.linear.snapshots, hs.linear.first, hs.linear.pruned, ?_⟩,
      hs.answers,
      fun task hm => (hs.tasks task hm).later List.prefix_rfl⟩
    intro h state hst
    refine hs.linear.caches h state ?_
    unfold Site.handle at hst ⊢
    rw [List.getElem?_append] at hst
    split at hst
    · exact hst
    next hlt =>
      rcases hx : ([{}] : List Handle)[h - s.site.handles.length]? with _ | handle <;> rw [hx] at hst
      · cases hst
      · obtain ⟨_, rfl⟩ := List.mem_singleton.mp (List.mem_of_getElem? hx)
        cases hst
  | begin h request =>
    simp only [Fleet.step] at hstep
    split at hstep
    · cases hstep
      refine ⟨hs.linear, hs.answers, fun task hm => ?_⟩
      rcases List.mem_append.mp hm with hm | hm
      · exact hs.tasks task hm
      · cases List.mem_singleton.mp hm
        exact hs.program h request
    · cases hstep
  | stop i =>
    cases hstep
    exact ⟨hs.linear, hs.answers, fun task hm => hs.tasks task (List.mem_of_mem_eraseIdx hm)⟩
  | proceed i reply =>
    obtain ⟨task, htask, rfl⟩ := Option.map_eq_some_iff.mp hstep
    have hmem := List.mem_of_getElem? htask
    have hgives := hs.tasks task hmem
    have hcalm := hcalm task htask
    have herase : ∀ other ∈ s.tasks.eraseIdx i, other ∈ s.tasks := fun _ => List.mem_of_mem_eraseIdx
    unfold proceed
    split
    next answer hrest =>
      rw [hrest] at hgives
      exact hs.answer herase fun a ha => hgives _ List.prefix_rfl hs.linear _ rfl a ha
    next => exact ⟨hs.linear, hs.answers, fun other hm => hs.tasks other (herase other hm)⟩
    next op next hrest =>
      rw [hrest] at hgives hcalm
      obtain ⟨hlin, hgrow, hnext⟩ := hgives _ List.prefix_rfl hs.linear _ _ ⟨hcalm, reply, rfl⟩
      refine ⟨hlin, fun a hm => ?_, fun other hm => ?_⟩
      · have hkept := (hs.answers a hm).grow (m := []) hgrow
        rwa [List.append_nil] at hkept
      · rcases List.mem_or_eq_of_mem_set hm with hm | rfl
        · exact (hs.tasks other hm).later hgrow
        · exact hnext

/--
The catalog is one history. A change that was answered with success is the commit at the generation of its answer, a
load that began later returns the fold of a chain that has it, and a handle that holds an epoch commits nothing after
the commit that takes the prefix away from it.
-/
structure OneHistory (s : Fleet) : Prop where
  folds : ∃ state, replay s.site.chain = .ok state
  committed : ∀ mutation c, .committed mutation c ∈ s.answers → c.ending = .applied →
    ∃ g commit, c.state.generation = g + 1 ∧ s.site.chain[g]? = some commit ∧ commit.mutation = mutation
  claimed : ∀ c, .claimed c ∈ s.answers → c.ending = .applied →
    ∃ g commit, c.state.generation = g + 1 ∧ s.site.chain[g]? = some commit ∧ commit.mutation.claimWriter = true
  loaded : ∀ before state, .loaded before state ∈ s.answers →
    replay (s.site.chain.take state.generation) = .ok state ∧
      ∀ earlier ∈ s.answers.take before, ∀ c, earlier.change = some c → c.state.generation ≤ state.generation
  fenced : ∀ answer ∈ s.answers, ∀ c, answer.change = some c → c.held ≠ 0 →
    ∀ g commit, s.site.chain[g]? = some commit → c.held < commit.mutation.writerEpoch → c.state.generation ≤ g + 1

theorem Sound.oneHistory (hs : s.Sound sha) : s.OneHistory where
  folds := hs.linear.folds
  committed := by
    intro mutation c hm happlied
    have hsound := (hs.answers _ hm).2
    rw [happlied] at hsound
    obtain ⟨g, commit, hg, hc, hmut, -⟩ := hsound
    exact ⟨g, commit, hg, hc, hmut⟩
  claimed := by
    intro c hm happlied
    obtain ⟨mutation, hclaim, hsound⟩ := hs.answers _ hm
    have hsound := hsound.2
    rw [happlied] at hsound
    obtain ⟨g, commit, hg, hc, rfl, -⟩ := hsound
    exact ⟨g, commit, hg, hc, hclaim⟩
  loaded := fun before state hm => ⟨(hs.answers _ hm).1, (hs.answers _ hm).2.2⟩
  fenced := by
    intro answer hm c hchange hheld g commit hc hlt
    obtain ⟨happlied, mutation, hsound⟩ := (hs.answers answer hm).of_change hchange
    have hsound := hsound.2
    rw [happlied] at hsound
    obtain ⟨g', commit', hg', -, -, hfence⟩ := hsound
    by_contra hcon
    have hmem : commit ∈ s.site.chain.take g' :=
      List.mem_of_getElem? (i := g) (by rw [List.getElem?_take_of_lt (by omega)]; exact hc)
    exact absurd (hfence hheld commit hmem) (by omega)

/--
**One history with fencing.** However the handles interleave, and whatever calls fail, the catalog is one history, as
long as no first replica of a commit is created under a generation that a pruning pass deleted.
-/
theorem one_history (h : Steps.Reach (Fleet.step sha) Calm {} s) : s.OneHistory :=
  (h.invariant (P := Sound sha) sound_empty fun _ _ _ hs hcalm hstep => hs.step hcalm hstep).oneHistory

/-! ## Calls that run to their end -/

/-- A call that is made while no other task is running, where the store is told which objects are old. -/
structure Turn where
  handle : Nat
  request : Request
  aged : List Nat := []

def complete (sha : Sha) (s : Fleet) (turn : Turn) : Fleet :=
  let (result, site) := (s.program sha turn.handle turn.request).run
    (fun op site => site.perform turn.handle ⟨.done, turn.aged⟩ op) s.site
  { s with
    site
    answers :=
      match result with
      | .ok answer => s.answers ++ answer.toList
      | .error _ => s.answers }

theorem handles_effect (site : Site) (h : Nat) (op : CatalogOp) :
    (site.effect h op).handles.length = site.handles.length := by
  cases op <;> simp only [Site.effect]
  case create => split <;> rfl
  case writeCache | writeEpoch => simp [Site.setHandle]
  all_goals rfl

theorem handles_perform (site : Site) (h : Nat) (reply : Reply) (op : CatalogOp) :
    (site.perform h reply op).2.handles.length = site.handles.length := by
  rcases Site.perform_site site h reply op with heq | heq <;> rw [heq]
  exact handles_effect site h op

/-- The calls of one task after each other. -/
theorem reach_run {start : Fleet} (h : Nat) (reply : Reply) (rest : CatalogM (Option Answered)) :
    ∀ s : Fleet, Steps.Reach (step sha) (fun _ _ => True) start s → s.tasks = [⟨h, rest⟩] →
      Steps.Reach (step sha) (fun _ _ => True) start
        { s with
          site := (rest.run (fun op site => site.perform h reply op) s.site).2
          tasks := []
          answers :=
            match (rest.run (fun op site => site.perform h reply op) s.site).1 with
            | .ok answer => s.answers ++ answer.toList
            | .error _ => s.answers } := by
  induction rest with
  | done answer =>
    intro s hs htasks
    refine hs.step (.proceed 0 reply) trivial ?_
    simp [step, proceed, htasks, Calls.run]
  | fail e =>
    intro s hs htasks
    refine hs.step (.proceed 0 reply) trivial ?_
    simp [step, proceed, htasks, Calls.run]
  | call op next ih =>
    intro s hs htasks
    have hnext := hs.step (.proceed 0 reply) trivial
      (show s.step sha (.proceed 0 reply) = some (s.proceed 0 reply ⟨h, .call op next⟩) by
      simp [step, htasks])
    exact ih _ _ hnext (by simp [proceed, htasks])

theorem handles_run (h : Nat) (reply : Reply) (rest : CatalogM (Option Answered)) (site : Site) :
    (rest.run (fun op site => site.perform h reply op) site).2.handles.length = site.handles.length := by
  induction rest generalizing site with
  | done | fail => rfl
  | call op next ih => exact (ih _ _).trans (handles_perform ..)

theorem reach_complete {start : Fleet} (hs : Steps.Reach (step sha) (fun _ _ => True) start s) (htasks : s.tasks = [])
    {turn : Turn} (hh : turn.handle < s.site.handles.length) :
    Steps.Reach (step sha) (fun _ _ => True) start (s.complete sha turn) := by
  have hbegin : s.step sha (.begin turn.handle turn.request) = some (s.begin sha turn.handle turn.request) := if_pos hh
  have hrun := reach_run turn.handle ⟨.done, turn.aged⟩ (s.program sha turn.handle turn.request) _
    (hs.step _ trivial hbegin) (by simp [begin, htasks])
  have htasks' : (s.complete sha turn).tasks = [] := htasks
  rw [show s.complete sha turn = { s.complete sha turn with tasks := [] } by rw [← htasks']]
  exact hrun

/-- Turns after each other. -/
def completeAll (sha : Sha) : List Turn → Fleet → Fleet
  | [], s => s
  | turn :: turns, s =>
    match s.complete sha turn with
    | ⟨site, tasks, answers⟩ => completeAll sha turns ⟨site, tasks, answers⟩

theorem reach_completeAll {start : Fleet} {turns : List Turn} :
    ∀ s : Fleet, Steps.Reach (step sha) (fun _ _ => True) start s → s.tasks = [] →
      (∀ turn ∈ turns, turn.handle < s.site.handles.length) →
      Steps.Reach (step sha) (fun _ _ => True) start (completeAll sha turns s) := by
  induction turns with
  | nil => exact fun s hs _ _ => hs
  | cons turn turns ih =>
    intro s hs htasks hh
    refine ih _ (reach_complete hs htasks (hh turn List.mem_cons_self)) htasks fun other hother => ?_
    have hlen : (s.complete sha turn).site.handles.length = s.site.handles.length := handles_run ..
    exact (hh other (List.mem_cons_of_mem _ hother)).trans_eq hlen.symm

/-! ## A handle that sleeps while its next generation is pruned -/

def addsPart : CatalogMutation := { transactionId := "t1", writerEpoch := 2, logAdded := [⟨"p", "x"⟩] }

def removesPart : CatalogMutation := { transactionId := "t2", writerEpoch := 2, logRemoved := ["x"] }

def sleepsLong : CatalogMutation := { transactionId := "t3", writerEpoch := 1, logAdded := [⟨"p", "y"⟩] }

/--
The first handle claims epoch 1. The second one claims epoch 2, commits up to the second snapshot and prunes the two
oldest commits. Then the first handle commits from the state it has cached.
-/
def sleeperTurns : List Turn :=
  [⟨0, .claim "c1", []⟩, ⟨1, .claim "c2", []⟩] ++
    (List.replicate 255 [⟨1, .commit addsPart, []⟩, ⟨1, .commit removesPart, []⟩]).flatten ++
    [⟨1, .prune, [1, 2]⟩, ⟨0, .commit sleepsLong, []⟩]

def twoHandles : Fleet := { site := { handles := [{}, {}] } }

theorem reach_twoHandles (sha : Sha) : Steps.Reach (step sha) (fun _ _ => True) {} twoHandles :=
  (Steps.Reach.start.step .join trivial rfl).step .join trivial rfl

/-- The last answer says that a mutation is committed, and the chain has another one at its generation. -/
def forgets (s : Fleet) : Bool :=
  match s.answers.getLast? with
  | some (.committed mutation c) =>
    c.ending = .applied && (s.site.chain[c.state.generation - 1]?.map (·.mutation)) ≠ some mutation
  | _ => false

theorem not_oneHistory_of_forgets (h : s.forgets = true) : ¬ s.OneHistory := by
  intro hone
  unfold forgets at h
  split at h
  next mutation c hlast =>
    simp only [Bool.and_eq_true, decide_eq_true_eq] at h
    obtain ⟨g, commit, hg, hc, hmut⟩ := hone.committed mutation c (List.mem_of_getLast? hlast) h.1
    exact h.2 (by rw [hg, Nat.add_sub_cancel, hc, Option.map_some, hmut])
  next => cases h

theorem sleeper_forgets : (completeAll generationSha sleeperTurns twoHandles).forgets = true := by decide +kernel

/-- **Pruning takes the fence away.** A fenced handle is answered with success and its mutation is in no later state. -/
theorem sleeper_commits : ∃ s, Steps.Reach (step generationSha) (fun _ _ => True) {} s ∧ ¬ s.OneHistory := by
  have hturns : ∀ turn ∈ sleeperTurns, turn.handle < twoHandles.site.handles.length := by decide +kernel
  have hreach := reach_completeAll twoHandles (reach_twoHandles generationSha) rfl hturns
  exact ⟨completeAll generationSha sleeperTurns twoHandles, hreach, not_oneHistory_of_forgets sleeper_forgets⟩

/-! ## A calm run -/

/-- A claim, a commit of the claimed epoch, and a load of a second handle. -/
def calmActions : List Action :=
  ([.join, .join, .begin 0 (.claim "c1")] : List Action) ++ (List.replicate 22 (.proceed 0 {}) : List Action) ++
    ([.begin 0 (.commit { addsPart with writerEpoch := 1 })] : List Action) ++
    (List.replicate 6 (.proceed 0 {}) : List Action) ++
    ([.begin 1 .load] : List Action) ++ (List.replicate 13 (.proceed 0 {}) : List Action)

theorem calm_run_one_history :
    ∃ s, Steps.Reach (step generationSha) Calm {} s ∧ s.answers.length = 3 ∧ s.OneHistory := by
  have hrun : (Steps.along (step generationSha) Calm calmActions {}).any
    (fun s => decide (s.answers.length = 3)) = true := by
    decide +kernel
  obtain ⟨s, hs, htest⟩ := Steps.exists_reach calmActions hrun
  exact ⟨s, hs, of_decide_eq_true htest, one_history hs⟩

end Fleet

end Signy
