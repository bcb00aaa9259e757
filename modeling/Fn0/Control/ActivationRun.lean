/-
Activation is safe and reaches the greatest version.

What a task knows of its version at each of its steps is that it is no longer pending, or no longer activating either.
No transaction takes that back, so it outlives whatever others do.
-/
import Mathlib
import Fn0.Control.Activation
import Fn0.Control.DeploymentFacts

namespace Deploy

namespace System

variable {s t : System} {docs docs' : Docs} {entry : WorkerProjectManifest} {codeVersion other now : Nat}
  {fn0WasmtimeVersion runtime : String}

/-! ## What is kept -/

/-- The version is no longer pending, or its activation was enqueued. -/
def Handed (s : System) (codeVersion : Nat) : Prop :=
  NotPending s.docs codeVersion ∨ ∃ message ∈ s.messages, message.codeVersion = codeVersion

/-- The compile is recorded, and if it is for the active runtime its version was handed on. -/
def Recorded (s : System) (codeVersion : Nat) (fn0WasmtimeVersion : String) : Prop :=
  Compiled s.docs codeVersion fn0WasmtimeVersion ∧
    (s.docs.activeFn0WasmtimeVersion = some fn0WasmtimeVersion → Handed s codeVersion)

/-- What a task knows of its version. -/
def Knows (s : System) (codeVersion : Nat) : Point → Prop
  | .start => True
  | .prePurge userZone | .setActivating userZone => userZone ≠ none
  | .reread userZone => userZone ≠ none ∧ NotPending s.docs codeVersion
  | .postPurge userZone => userZone ≠ none ∧ NotPending s.docs codeVersion ∧ codeVersion ∈ s.switched
  | .setActive => NotPending s.docs codeVersion ∧ codeVersion ∈ s.purged
  | .retire runtimeRecords _ => Done s.docs codeVersion ∧ ∀ runtime ∈ runtimeRecords, runtime.codeVersion ≤ codeVersion
  | .enqueuePrune | .readConfig | .readRuntimes _ | .enqueueReconcile _ => Done s.docs codeVersion

def AttemptKept (s : System) (attempt : Attempt) : Prop :=
  ∃ callback, s.callbacks[attempt.callback]? = some callback ∧
    Compiled s.docs callback.codeVersion callback.fn0WasmtimeVersion ∧
    (attempt.shouldEnqueue = true → Runs s.docs callback.codeVersion) ∧
    (attempt.shouldEnqueue = false → Recorded s callback.codeVersion callback.fn0WasmtimeVersion)

def MessageKept (s : System) (message : Message) : Prop :=
  Runs s.docs message.codeVersion ∧ (message.acked = true → Done s.docs message.codeVersion)

def TaskKept (s : System) (task : Task) : Prop :=
  (∃ message, s.messages[task.message]? = some message ∧ message.codeVersion = task.codeVersion) ∧
    Knows s task.codeVersion task.point

structure Kept (s : System) : Prop where
  entry : ∃ entry, s.docs.entry = some entry ∧ entry.domain ≠ "" ∧ EntryKept s.docs entry
  compiled : ∀ codeVersion fn0WasmtimeVersion, Compiled s.docs codeVersion fn0WasmtimeVersion →
    ∃ callback ∈ s.callbacks, callback.codeVersion = codeVersion ∧ callback.fn0WasmtimeVersion = fn0WasmtimeVersion
  answered : ∀ callback ∈ s.callbacks, callback.answered = true →
    Recorded s callback.codeVersion callback.fn0WasmtimeVersion
  attempts : ∀ attempt ∈ s.attempts, s.AttemptKept attempt
  messages : ∀ message ∈ s.messages, s.MessageKept message
  tasks : ∀ task ∈ s.tasks, s.TaskKept task
  activating : ∀ entry, s.docs.entry = some entry → entry.staticCacheState = .activating →
    ∃ message ∈ s.messages, message.codeVersion = entry.codeVersion
  switched : named s.docs ∈ s.switched

/-- Documents go forward, and callbacks and messages stay. -/
structure Grows (s t : System) : Prop where
  docs : Forward s.docs t.docs
  callbacks : ∀ (i : Nat) callback, s.callbacks[i]? = some callback → ∃ callback', t.callbacks[i]? = some callback' ∧
    callback'.codeVersion = callback.codeVersion ∧ callback'.fn0WasmtimeVersion = callback.fn0WasmtimeVersion
  messages : ∀ (i : Nat) message, s.messages[i]? = some message → ∃ message', t.messages[i]? = some message' ∧
    message'.codeVersion = message.codeVersion
  switched : s.switched ⊆ t.switched
  purged : s.purged ⊆ t.purged

theorem Grows.message (h : Grows s t) {codeVersion : Nat}
    (hm : ∃ message ∈ s.messages, message.codeVersion = codeVersion) :
    ∃ message ∈ t.messages, message.codeVersion = codeVersion := by
  obtain ⟨message, hm, rfl⟩ := hm
  obtain ⟨i, hi⟩ := List.mem_iff_getElem?.mp hm
  obtain ⟨message', hi', heq⟩ := h.messages i message hi
  exact ⟨message', List.mem_of_getElem? hi', heq⟩

theorem Handed.grows (hg : Grows s t) (h : Handed s codeVersion) (hr : Runs s.docs codeVersion) :
    Handed t codeVersion :=
  h.imp (hg.docs.notPending _ hr) hg.message

theorem Recorded.grows (hg : Grows s t) (h : Recorded s codeVersion fn0WasmtimeVersion) :
    Recorded t codeVersion fn0WasmtimeVersion := by
  refine ⟨hg.docs.compiled _ _ h.1, fun hactive => ?_⟩
  rw [hg.docs.active] at hactive
  exact (h.2 hactive).grows hg ⟨_, hactive, h.1⟩

theorem Knows.grows (hg : Grows s t) {point : Point} (h : Knows s codeVersion point) (hr : Runs s.docs codeVersion) :
    Knows t codeVersion point := by
  have hpending := hg.docs.notPending codeVersion hr
  have hdone := hg.docs.done codeVersion hr
  cases point with
  | start => trivial
  | prePurge userZone => exact h
  | setActivating userZone => exact h
  | reread userZone => exact ⟨h.1, hpending h.2⟩
  | postPurge userZone => exact ⟨h.1, hpending h.2.1, hg.switched h.2.2⟩
  | setActive => exact ⟨hpending h.1, hg.purged h.2⟩
  | retire runtimeRecords declared => exact ⟨hdone h.1, h.2⟩
  | enqueuePrune | readConfig | readRuntimes | enqueueReconcile => exact hdone h

theorem AttemptKept.grows (hg : Grows s t) {attempt : Attempt} (h : s.AttemptKept attempt) : t.AttemptKept attempt := by
  obtain ⟨callback, hcallback, hc, hruns, hrecorded⟩ := h
  obtain ⟨callback', hcallback', hversion, hruntime⟩ := hg.callbacks _ callback hcallback
  refine ⟨callback', hcallback', ?_⟩
  rw [hversion, hruntime]
  exact ⟨hg.docs.compiled _ _ hc, fun he => hg.docs.runs (hruns he), fun he => (hrecorded he).grows hg⟩

theorem MessageKept.grows (hg : Grows s t) {message : Message} (h : s.MessageKept message) : t.MessageKept message :=
  ⟨hg.docs.runs h.1, fun hacked => hg.docs.done _ h.1 (h.2 hacked)⟩

theorem Kept.runs (h : s.Kept) {task : Task} (ht : s.TaskKept task) : Runs s.docs task.codeVersion := by
  obtain ⟨⟨message, hmessage, heq⟩, -⟩ := ht
  exact heq ▸ (h.messages message (List.mem_of_getElem? hmessage)).1

theorem TaskKept.grows (hg : Grows s t) {task : Task} (h : s.TaskKept task) (hr : Runs s.docs task.codeVersion) :
    t.TaskKept task := by
  obtain ⟨⟨message, hmessage, heq⟩, hknows⟩ := h
  obtain ⟨message', hmessage', heq'⟩ := hg.messages _ message hmessage
  exact ⟨⟨message', hmessage', heq'.trans heq⟩, hknows.grows hg hr⟩

/-- **Growth.** What is kept stays kept when everything that is new is. -/
theorem Kept.grows (h : s.Kept) (hg : Grows s t)
    (hcompiled : ∀ v r, Compiled t.docs v r → Compiled s.docs v r ∨
      ∃ callback ∈ t.callbacks, callback.codeVersion = v ∧ callback.fn0WasmtimeVersion = r)
    (hanswered : ∀ callback ∈ t.callbacks, callback.answered = true → callback ∈ s.callbacks ∨
      Recorded t callback.codeVersion callback.fn0WasmtimeVersion)
    (hattempts : ∀ attempt ∈ t.attempts, attempt ∈ s.attempts ∨ t.AttemptKept attempt)
    (hmessages : ∀ message ∈ t.messages, message ∈ s.messages ∨ t.MessageKept message)
    (htasks : ∀ task ∈ t.tasks, task ∈ s.tasks ∨ t.TaskKept task)
    (hactivating : ∀ entry, t.docs.entry = some entry → entry.staticCacheState = .activating →
      t.docs.entry = s.docs.entry ∨ ∃ message ∈ t.messages, message.codeVersion = entry.codeVersion)
    (hswitched : named t.docs ∈ t.switched) : t.Kept where
  entry := by
    obtain ⟨entry, hentry, hdomain, hk⟩ := h.entry
    obtain ⟨entry', hentry', hsame, -, hk'⟩ := hg.docs.entry entry hentry hk
    exact ⟨entry', hentry', hsame ▸ hdomain, hk'⟩
  compiled v r hc := by
    rcases hcompiled v r hc with hc | hc
    · obtain ⟨callback, hm, hversion, hruntime⟩ := h.compiled v r hc
      obtain ⟨i, hi⟩ := List.mem_iff_getElem?.mp hm
      obtain ⟨callback', hi', hversion', hruntime'⟩ := hg.callbacks i callback hi
      exact ⟨callback', List.mem_of_getElem? hi', hversion'.trans hversion, hruntime'.trans hruntime⟩
    · exact hc
  answered callback hm hdone :=
    (hanswered callback hm hdone).elim (fun hm => (h.answered callback hm hdone).grows hg) id
  attempts attempt hm := (hattempts attempt hm).elim (fun hm => (h.attempts attempt hm).grows hg) id
  messages message hm := (hmessages message hm).elim (fun hm => (h.messages message hm).grows hg) id
  tasks task hm := (htasks task hm).elim (fun hm => (h.tasks task hm).grows hg (h.runs (h.tasks task hm))) id
  activating entry hentry hstate := by
    rcases hactivating entry hentry hstate with heq | hm
    · exact hg.message (h.activating entry (heq ▸ hentry) hstate)
    · exact hm
  switched := hswitched

theorem Grows.of_docs (hdocs : Forward s.docs t.docs) (hcallbacks : t.callbacks = s.callbacks)
    (hmessages : t.messages = s.messages) (hswitched : s.switched ⊆ t.switched) (hpurged : s.purged ⊆ t.purged) :
      Grows s t :=
  ⟨hdocs, fun _ callback h => ⟨callback, hcallbacks ▸ h, rfl, rfl⟩, fun _ message h => ⟨message, hmessages ▸ h, rfl⟩,
    hswitched, hpurged⟩

theorem Grows.refl (s : System) : Grows s s := .of_docs (.refl s.docs) rfl rfl (fun _ h => h) fun _ h => h

/-! ## Steps of a task -/

/-- What one step of a task does to the rest of the system, before the task moves on. -/
structure Performs (s : System) (codeVersion : Nat) (result : System × Option Point) : Prop where
  grows : Grows s result.1
  callbacks : result.1.callbacks = s.callbacks
  attempts : result.1.attempts = s.attempts
  messages : result.1.messages = s.messages
  tasks : result.1.tasks = s.tasks
  bundles : result.1.docs.bundles = s.docs.bundles
  activating : ∀ entry, result.1.docs.entry = some entry → entry.staticCacheState = .activating →
    result.1.docs.entry = s.docs.entry ∨ entry.codeVersion = codeVersion
  switched : named result.1.docs ∈ result.1.switched
  next : ∀ point, result.2 = some point → Knows result.1 codeVersion point
  done : result.2 = none → Done result.1.docs codeVersion

/-- The step reads. -/
theorem Performs.read (hs : named s.docs ∈ s.switched) {next : Option Point}
    (hnext : ∀ point, next = some point → Knows s codeVersion point) (hdone : next = none → Done s.docs codeVersion) :
    Performs s codeVersion (s, next) :=
  ⟨.refl s, rfl, rfl, rfl, rfl, rfl, fun _ _ _ => .inl rfl, hs, hnext, hdone⟩

theorem Performs.goOn (hs : named s.docs ∈ s.switched) {point : Point} (h : Knows s codeVersion point) :
    Performs s codeVersion (s, some point) :=
  .read hs (fun _ heq => by cases heq; exact h) nofun

/-- The step purges the zone. -/
theorem Performs.purge (hs : named s.docs ∈ s.switched) {userZone : Option String} {point : Point}
    (h : Knows (s.purgeUserZone userZone) codeVersion point) :
    Performs s codeVersion (s.purgeUserZone userZone, some point) := by
  cases userZone with
  | none => exact .goOn hs h
  | some domain =>
    exact ⟨.of_docs (.refl s.docs) rfl rfl (fun _ h => h) fun _ hm => List.mem_append_right _ hm, rfl,
      rfl, rfl, rfl, rfl,
      fun _ _ _ => .inl rfl, hs, fun _ heq => by cases heq; exact h, nofun⟩

/-- The step commits a transaction. -/
theorem Performs.commit {docs : Docs} {point : Point} (hforward : Forward s.docs docs)
    (hbundles : docs.bundles = s.docs.bundles)
    (hactivating : ∀ entry, docs.entry = some entry → entry.staticCacheState = .activating →
      docs.entry = s.docs.entry ∨ entry.codeVersion = codeVersion) (h : Knows (s.write docs) codeVersion point) :
    Performs s codeVersion (s.write docs, some point) :=
  ⟨.of_docs hforward rfl rfl (fun _ hm => List.mem_cons_of_mem _ hm) fun _ hm => hm, rfl, rfl, rfl, rfl, hbundles,
    hactivating, List.mem_cons_self, fun _ heq => by cases heq; exact h, nofun⟩

/-- The versions of an entry that the task of another version finds are done with. -/
theorem notPending_of_state (hk : EntryKept s.docs entry) (hentry : s.docs.entry = some entry)
    (hstate : entry.staticCacheState ≠ .prePurge) (codeVersion : Nat) : NotPending s.docs codeVersion := by
  intro other hother heq
  cases hentry.symm.trans hother
  exact hstate (hk.pending codeVersion heq).1

theorem performs_start (hk : s.Kept) (now codeVersion : Nat) :
    Performs s codeVersion (s.perform now codeVersion .start) := by
  obtain ⟨entry, hentry, hdomain, he⟩ := hk.entry
  simp only [perform, hentry, if_neg hdomain]
  cases hstage : activationStage entry.codeVersion entry.pendingCodeVersion entry.staticCacheState codeVersion with
  | obsolete =>
    refine .read hk.switched nofun fun _ other hother => ?_
    cases hentry.symm.trans hother
    unfold activationStage at hstage
    split at hstage
    · cases hstage
    · split at hstage
      · cases hstage
      next hpending =>
        split at hstage
        · cases hstage
        next hactivating => exact ⟨fun heq => hpending ⟨heq, (he.pending _ heq).1⟩, hactivating⟩
  | alreadyActive =>
    refine .goOn hk.switched fun other hother => ?_
    cases hentry.symm.trans hother
    have hstate : entry.staticCacheState = .active := by
      unfold activationStage at hstage
      split at hstage
      next h => exact h.2
      next => split at hstage <;> [cases hstage; split at hstage <;> cases hstage]
    exact ⟨notPending_of_state he hentry (by rw [hstate]; nofun) codeVersion entry hentry,
      fun hboth => by rw [hstate] at hboth; nomatch hboth.2⟩
  | pending | activating =>
    dsimp only
    split
    · exact .goOn hk.switched nofun
    next hstate => exact .goOn hk.switched ⟨nofun, notPending_of_state he hentry hstate codeVersion⟩

theorem performs_setActivating (hk : s.Kept) (now : Nat) {codeVersion : Nat} {userZone : Option String}
    (h : Knows s codeVersion (.setActivating userZone)) :
    Performs s codeVersion (s.perform now codeVersion (.setActivating userZone)) := by
  obtain ⟨entry, hentry, -, he⟩ := hk.entry
  have hforward := forward_setActivating s.docs codeVersion
  refine .commit hforward ?_ (fun e hme hstate => ?_) ⟨h, fun e hme => ?_⟩
  · unfold Deploy.setActivating
    split
    · rfl
    · split <;> rfl
  · simp only [Deploy.setActivating, hentry] at hme ⊢
    split at hme
    · cases hme
      exact .inr rfl
    next hnot => exact .inl (by rw [if_neg hnot]; exact hentry)
  · change (Deploy.setActivating s.docs codeVersion).entry = some e at hme
    simp only [Deploy.setActivating, hentry] at hme
    split at hme
    · cases hme
      nofun
    next hnot =>
      cases hentry.symm.trans hme
      exact fun heq => hnot ⟨heq, (he.pending _ heq).1⟩

theorem performs_setActive (hk : s.Kept) (now : Nat) {codeVersion : Nat} (h : Knows s codeVersion .setActive)
    (hruns : Runs s.docs codeVersion) : Performs s codeVersion (s.perform now codeVersion .setActive) := by
  obtain ⟨entry, hentry, -, he⟩ := hk.entry
  have hforward := forward_setActive s.docs codeVersion
  refine .commit hforward ?_ (fun e hme hstate => ?_) fun e hme => ?_
  · unfold Deploy.setActive
    split
    · rfl
    · split <;> rfl
  · simp only [Deploy.setActive, hentry] at hme ⊢
    split at hme
    · cases hme
      cases hstate
    next hnot => exact .inl (by rw [if_neg hnot]; exact hentry)
  · refine ⟨hforward.notPending codeVersion hruns h.1 e hme, ?_⟩
    change (Deploy.setActive s.docs codeVersion).entry = some e at hme
    simp only [Deploy.setActive, hentry] at hme
    split at hme
    · cases hme
      exact fun hboth => nomatch hboth.2
    next hnot =>
      cases hentry.symm.trans hme
      exact hnot

theorem performs_reread (hk : s.Kept) (now : Nat) {codeVersion : Nat} {userZone : Option String}
    (h : Knows s codeVersion (.reread userZone)) :
    Performs s codeVersion (s.perform now codeVersion (.reread userZone)) := by
  obtain ⟨entry, hentry, -, -⟩ := hk.entry
  simp only [perform, hentry]
  split
  next hnot =>
    refine .read hk.switched nofun fun _ e he => ⟨h.2 e he, fun hboth => ?_⟩
    cases hentry.symm.trans he
    exact hnot.elim (· hboth.1) (· hboth.2)
  next hsame =>
    have hversion : entry.codeVersion = codeVersion := by
      by_contra hne
      exact hsame (.inl hne)
    refine .goOn hk.switched ⟨h.1, h.2, ?_⟩
    have hnamed := hk.switched
    rw [named, hentry] at hnamed
    exact hversion ▸ hnamed

/-- **Steps of a task.** Each leaves what is kept as it is and hands what it found out to the next. -/
theorem performs_perform (hk : s.Kept) (now : Nat) {codeVersion : Nat} {point : Point} (h : Knows s codeVersion point)
    (hruns : Runs s.docs codeVersion)
    (hcalm : ∀ declared, point = .readRuntimes declared → ∀ runtime ∈ s.runtimeRecords,
      runtime.codeVersion ≤ codeVersion) :
    Performs s codeVersion (s.perform now codeVersion point) := by
  cases point with
  | start => exact performs_start hk now codeVersion
  | prePurge userZone => exact .purge hk.switched h
  | setActivating userZone => exact performs_setActivating hk now h
  | reread userZone => exact performs_reread hk now h
  | postPurge userZone =>
    refine .purge hk.switched ?_
    obtain ⟨hzone, hpending, hswitched⟩ := h
    cases userZone with
    | none => exact absurd rfl hzone
    | some domain => exact ⟨hpending, List.mem_append_left _ hswitched⟩
  | setActive => exact performs_setActive hk now h hruns
  | enqueuePrune => exact .goOn hk.switched h
  | readConfig => exact .goOn hk.switched h
  | readRuntimes declared => exact .goOn hk.switched ⟨h, hcalm declared rfl⟩
  | retire runtimeRecords declared =>
    cases runtimeRecords with
    | nil => exact .goOn hk.switched h.1
    | cons runtime rest =>
      have hrest : Knows s codeVersion (.retire rest declared) := ⟨h.1, fun r hr => h.2 r (List.mem_cons_of_mem _ hr)⟩
      simp only [perform]
      split
      · exact ⟨.of_docs (.refl s.docs) rfl rfl (fun _ h => h) fun _ h => h, rfl, rfl, rfl, rfl, rfl,
          fun _ _ _ => .inl rfl,
          hk.switched, fun _ heq => by cases heq; exact hrest, nofun⟩
      · exact .goOn hk.switched hrest
  | enqueueReconcile declared =>
    cases declared with
    | nil => exact .read hk.switched nofun fun _ => h
    | cons _ rest => exact .goOn hk.switched h

/-! ## Steps of the system -/

theorem mem_modify {α : Type} {l : List α} {i : Nat} {f : α → α} {a : α} (h : a ∈ l.modify i f) :
    a ∈ l ∨ ∃ b, l[i]? = some b ∧ a = f b := by
  obtain ⟨j, hj⟩ := List.mem_iff_getElem?.mp h
  rw [List.getElem?_modify] at hj
  obtain ⟨b, hb, heq⟩ := Option.map_eq_some_iff.mp hj
  split at heq
  next hij => exact .inr ⟨b, hij ▸ hb, heq.symm⟩
  next => exact .inl (heq ▸ List.mem_of_getElem? hb)

theorem Kept.advance (hk : s.Kept) {k now : Nat} {task : Task} (htask : s.tasks[k]? = some task)
    (hcalm : s.Calm (.advance k now)) :
    ((s.perform now task.codeVersion task.point).1.resume k task
      (s.perform now task.codeVersion task.point).2).Kept := by
  have ht := hk.tasks task (List.mem_of_getElem? htask)
  have hruns := hk.runs ht
  have hp := performs_perform hk now ht.2 hruns fun declared hpoint runtime hr => by
    have hc := hcalm task htask
    rw [hpoint] at hc
    exact hc runtime hr
  generalize s.perform now task.codeVersion task.point = result at hp ⊢
  obtain ⟨u, next⟩ := result
  obtain ⟨message, hmessage, hversion⟩ := ht.1
  have hcompiled : ∀ v r, Compiled u.docs v r → Compiled s.docs v r := fun v r hc => by
    unfold Compiled at hc ⊢
    rwa [hp.bundles] at hc
  have hmine : ∃ message ∈ s.messages, message.codeVersion = task.codeVersion :=
    ⟨message, List.mem_of_getElem? hmessage, hversion⟩
  cases next with
  | some point =>
    refine hk.grows ⟨hp.grows.docs, hp.grows.callbacks, hp.grows.messages, hp.grows.switched, hp.grows.purged⟩
      (fun v r hc => .inl (hcompiled v r hc)) (fun c hc _ => .inl (hp.callbacks ▸ hc))
      (fun a ha => .inl (hp.attempts ▸ ha))
      (fun m hm => .inl (hp.messages ▸ hm)) (fun other ho => ?_) (fun entry he hstate => ?_) hp.switched
    · rcases List.mem_or_eq_of_mem_set ho with ho | rfl
      · exact .inl (hp.tasks ▸ ho)
      · exact .inr ⟨⟨message, by rw [← hmessage, ← hp.messages]; rfl, hversion⟩,
          (hp.next point rfl).grows (.refl u) (hp.grows.docs.runs hruns)⟩
    · rcases hp.activating entry he hstate with heq | heq
      · exact .inl heq
      · refine .inr ?_
        rw [heq]
        exact hp.messages ▸ hmine
  | none =>
    have hmessages : ∀ (i : Nat) m, s.messages[i]? = some m → ∃ m',
        (u.messages.modify task.message fun m => { m with acked := true })[i]? = some m' ∧
          m'.codeVersion = m.codeVersion := by
      intro i m hm
      rw [List.getElem?_modify, hp.messages, hm]
      refine ⟨_, rfl, ?_⟩
      dsimp only
      split <;> rfl
    have hg : Grows s (u.resume k task none) :=
      ⟨hp.grows.docs, hp.grows.callbacks, hmessages, hp.grows.switched, hp.grows.purged⟩
    refine hk.grows hg (fun v r hc => .inl (hcompiled v r hc)) (fun c hc _ => .inl (hp.callbacks ▸ hc))
      (fun a ha => .inl (hp.attempts ▸ ha)) (fun m hm => ?_)
      (fun other ho => .inl (hp.tasks ▸ List.mem_of_mem_eraseIdx ho)) (fun entry he hstate => ?_) hp.switched
    · rcases mem_modify hm with hm | ⟨m', hm', rfl⟩
      · exact .inl (hp.messages ▸ hm)
      · rw [hp.messages, hmessage] at hm'
        cases hm'
        exact .inr ⟨hversion.symm ▸ hp.grows.docs.runs hruns, fun _ => hversion.symm ▸ hp.done rfl⟩
    · rcases hp.activating entry he hstate with heq | heq
      · exact .inl heq
      · exact .inr (heq ▸ hg.message hmine)

/-- After the transaction of a callback: the version is on its way, or it is done with. -/
theorem attempt_bundleCompiled (hk : s.Kept) (now codeVersion : Nat) (fn0WasmtimeVersion : String) :
    ((bundleCompiled s.docs now codeVersion fn0WasmtimeVersion).2 = true →
      Runs (bundleCompiled s.docs now codeVersion fn0WasmtimeVersion).1 codeVersion) ∧
    ((bundleCompiled s.docs now codeVersion fn0WasmtimeVersion).2 = false →
      NotPending (bundleCompiled s.docs now codeVersion fn0WasmtimeVersion).1 codeVersion) ∧
    ∀ entry, (bundleCompiled s.docs now codeVersion fn0WasmtimeVersion).1.entry = some entry →
      entry.staticCacheState ≠ .prePurge → s.docs.entry = some entry := by
  obtain ⟨entry, hentry, -, he⟩ := hk.entry
  rcases bundleCompiled_cases s.docs now codeVersion fn0WasmtimeVersion with ⟨e, h⟩ | h
  · refine ⟨fun _ => runs_bundleCompiled.mpr (.inr ⟨rfl, h.active⟩), fun hfalse => ?_, fun e' he' hstate => ?_⟩
    · cases hfalse.symm.trans h.enqueue
    · cases h.after.symm.trans he'
      exact absurd rfl hstate
  · refine ⟨fun htrue => ?_, fun hfalse e' he' heq => ?_, fun e' he' _ => h.after ▸ he'⟩
    · obtain ⟨e', he', hawaits⟩ := h.enqueue htrue
      cases hentry.symm.trans he'
      have htarget := he.runs
      rw [target, (awaits_iff.mp hawaits).1, Option.getD_some] at htarget
      exact runs_bundleCompiled.mpr (.inl (htarget.resolve_right (by simp)))
    · rw [h.after] at he'
      cases hentry.symm.trans he'
      have hnot := h.skip hfalse entry hentry
      rw [awaits_iff.mpr ⟨heq, by rw [(he.pending _ heq).1]; simp⟩] at hnot
      cases hnot

theorem Kept.attempt (hk : s.Kept) {i : Nat} {callback : Callback} (hi : s.callbacks[i]? = some callback) (now : Nat) :
    Kept { s.write (bundleCompiled s.docs now callback.codeVersion callback.fn0WasmtimeVersion).1 with
      attempts := s.attempts ++ [⟨i, (bundleCompiled s.docs now callback.codeVersion
        callback.fn0WasmtimeVersion).2⟩] } := by
  have hforward := forward_bundleCompiled s.docs now callback.codeVersion callback.fn0WasmtimeVersion
  obtain ⟨hruns, hpending, hentry⟩ := attempt_bundleCompiled hk now callback.codeVersion callback.fn0WasmtimeVersion
  refine hk.grows (.of_docs hforward rfl rfl (fun _ hm => List.mem_cons_of_mem _ hm) fun _ hm => hm) (fun v r hc => ?_)
    (fun c hc _ => .inl hc) (fun a ha => ?_) (fun m hm => .inl hm) (fun task ht => .inl ht) (fun entry he hstate => ?_)
    List.mem_cons_self
  · rcases compiled_bundleCompiled.mp hc with hc | ⟨rfl, rfl⟩
    · exact .inl hc
    · exact .inr ⟨callback, List.mem_of_getElem? hi, rfl, rfl⟩
  · rcases List.mem_append.mp ha with ha | ha
    · exact .inl ha
    · rw [List.mem_singleton.mp ha]
      have hc : Compiled (bundleCompiled s.docs now callback.codeVersion callback.fn0WasmtimeVersion).1
          callback.codeVersion callback.fn0WasmtimeVersion := compiled_bundleCompiled.mpr (.inr ⟨rfl, rfl⟩)
      exact .inr ⟨callback, hi, hc, hruns, fun hfalse => ⟨hc, fun _ => .inl (hpending hfalse)⟩⟩
  · exact .inl (he.trans (hentry entry he (by rw [hstate]; nofun)).symm)

theorem Kept.enqueue (hk : s.Kept) {i j : Nat} {callback : Callback} (hj : s.attempts[j]? = some ⟨i, true⟩)
    (hi : s.callbacks[i]? = some callback) :
    Kept { s with
      messages := s.messages ++ [⟨callback.codeVersion, false⟩]
      attempts := s.attempts.set j ⟨i, false⟩ } := by
  obtain ⟨callback', hi', hc, hruns, -⟩ := hk.attempts _ (List.mem_of_getElem? hj)
  cases hi.symm.trans hi'
  refine hk.grows ⟨.refl s.docs, fun _ c h => ⟨c, h, rfl, rfl⟩, fun k m hm => ⟨m, ?_, rfl⟩, fun _ h => h, fun _ h => h⟩
    (fun _ _ h => .inl h) (fun _ h _ => .inl h) (fun a ha => ?_) (fun m hm => ?_) (fun _ h => .inl h)
    (fun _ _ _ => .inl rfl) hk.switched
  · obtain ⟨hlt, -⟩ := List.getElem?_eq_some_iff.mp hm
    exact (List.getElem?_append_left hlt).trans hm
  · rcases List.mem_or_eq_of_mem_set ha with ha | rfl
    · exact .inl ha
    · exact .inr ⟨callback, hi, hc, nofun, fun _ =>
        ⟨hc, fun _ => .inr ⟨_, List.mem_append_right _ (List.mem_singleton.mpr rfl), rfl⟩⟩⟩
  · rcases List.mem_append.mp hm with hm | hm
    · exact .inl hm
    · rw [List.mem_singleton.mp hm]
      exact .inr ⟨hruns rfl, nofun⟩

theorem Kept.answer (hk : s.Kept) {i j : Nat} (hj : s.attempts[j]? = some ⟨i, false⟩) :
    Kept { s with
      callbacks := s.callbacks.modify i fun callback => { callback with answered := true }
      attempts := s.attempts.eraseIdx j } := by
  obtain ⟨callback, hi, -, -, hrecorded⟩ := hk.attempts _ (List.mem_of_getElem? hj)
  have hg : Grows s { s with
      callbacks := s.callbacks.modify i fun callback => { callback with answered := true }
      attempts := s.attempts.eraseIdx j } := by
    refine ⟨.refl s.docs, fun k c hc => ?_, fun _ m h => ⟨m, h, rfl⟩, fun _ h => h, fun _ h => h⟩
    dsimp only
    rw [List.getElem?_modify, hc]
    refine ⟨_, rfl, ?_⟩
    split <;> exact ⟨rfl, rfl⟩
  refine hk.grows hg (fun _ _ h => .inl h) (fun c hc _ => ?_) (fun a ha => .inl (List.mem_of_mem_eraseIdx ha))
    (fun _ h => .inl h) (fun _ h => .inl h) (fun _ _ _ => .inl rfl) hk.switched
  rcases mem_modify hc with hc | ⟨c', hc', rfl⟩
  · exact .inl hc
  · cases hi.symm.trans hc'
    exact .inr ((hrecorded rfl).grows hg)

theorem Kept.step (hk : s.Kept) {action : Action} (hcalm : s.Calm action) (h : s.step action = some t) : t.Kept := by
  cases action with
  | arrive codeVersion fn0WasmtimeVersion =>
    cases h
    refine hk.grows ⟨.refl s.docs, fun i c hc => ⟨c, ?_, rfl, rfl⟩, fun _ m h => ⟨m, h, rfl⟩, fun _ h => h,
      fun _ h => h⟩
      (fun _ _ h => .inl h) (fun c hc hanswered => ?_) (fun _ h => .inl h) (fun _ h => .inl h) (fun _ h => .inl h)
      (fun _ _ _ => .inl rfl) hk.switched
    · obtain ⟨hlt, -⟩ := List.getElem?_eq_some_iff.mp hc
      exact (List.getElem?_append_left hlt).trans hc
    · rcases List.mem_append.mp hc with hc | hc
      · exact .inl hc
      · rw [List.mem_singleton.mp hc] at hanswered
        cases hanswered
  | attempt i now =>
    simp only [System.step] at h
    split at h <;> cases h
    exact hk.attempt ‹_› now
  | enqueue j =>
    simp only [System.step] at h
    split at h
    · split at h <;> cases h
      exact hk.enqueue ‹_› ‹_›
    · cases h
  | answer j =>
    simp only [System.step] at h
    split at h <;> cases h
    exact hk.answer ‹_›
  | abandon j =>
    cases h
    exact hk.grows (.of_docs (.refl s.docs) rfl rfl (fun _ h => h) fun _ h => h) (fun _ _ h => .inl h)
      (fun _ h _ => .inl h)
      (fun a ha => .inl (List.mem_of_mem_eraseIdx ha)) (fun _ h => .inl h) (fun _ h => .inl h)
      (fun _ _ _ => .inl rfl) hk.switched
  | deliver m =>
    simp only [System.step] at h
    split at h <;> cases h
    next message hm =>
      refine hk.grows (.of_docs (.refl s.docs) rfl rfl (fun _ h => h) fun _ h => h) (fun _ _ h => .inl h)
        (fun _ h _ => .inl h) (fun _ h => .inl h) (fun _ h => .inl h) (fun task ht => ?_)
        (fun _ _ _ => .inl rfl) hk.switched
      rcases List.mem_append.mp ht with ht | ht
      · exact .inl ht
      · rw [List.mem_singleton.mp ht]
        exact .inr ⟨⟨message, hm, rfl⟩, trivial⟩
  | advance k now =>
    simp only [System.step] at h
    split at h <;> cases h
    exact hk.advance ‹_› hcalm
  | fail k =>
    cases h
    exact hk.grows (.of_docs (.refl s.docs) rfl rfl (fun _ h => h) fun _ h => h) (fun _ _ h => .inl h)
      (fun _ h _ => .inl h)
      (fun _ h => .inl h) (fun _ h => .inl h) (fun _ h => .inl (List.mem_of_mem_eraseIdx h))
      (fun _ _ _ => .inl rfl) hk.switched
  | writeRuntime | writeConfig =>
    cases h
    exact hk.grows (.of_docs (.refl s.docs) rfl rfl (fun _ h => h) fun _ h => h) (fun _ _ h => .inl h)
      (fun _ h _ => .inl h)
      (fun _ h => .inl h) (fun _ h => .inl h) (fun _ h => .inl h) (fun _ _ _ => .inl rfl) hk.switched

theorem kept_start {domain : String} (hdomain : domain ≠ "") (activeFn0WasmtimeVersion : Option String) :
    (start domain activeFn0WasmtimeVersion).Kept := by
  have hnone : ∀ v r, ¬ Compiled (start domain activeFn0WasmtimeVersion).docs v r := by
    rintro v r ⟨doc, hdoc, -⟩
    simp [start] at hdoc
  refine ⟨⟨_, rfl, hdomain, nofun, nofun, ?_, .inr ⟨rfl, rfl⟩⟩, ?_, nofun, nofun, nofun, nofun, ?_,
    List.mem_singleton.mpr rfl⟩
  · rintro v ⟨active, -, hc⟩
    exact absurd hc (hnone v active)
  · exact fun v r hc => absurd hc (hnone v r)
  · rintro entry ⟨rfl⟩ hstate
    cases hstate

/-! ## Safety and progress -/

/-- A step that leaves documents and runtime records as they are. -/
theorem Safe.of_docs {action : Action} (hdocs : t.docs = s.docs)
    (hruntimes : s.actor action = none ∨ t.runtimes = s.runtimes) :
    Safe s action t := by
  refine ⟨by rw [hdocs], fun _ _ _ hne => absurd (by rw [hdocs]) hne, fun _ _ _ he _ => by rw [hdocs, he], ?_⟩
  intro task htask id runtime hr _
  rcases hruntimes with h | h
  · cases h.symm.trans htask
  · rw [h, hr]

/-- Only a record of the version that was read is changed. -/
theorem getElem?_retire {runtimes : Std.ExtTreeMap String WebSocketSingletonRuntimeDoc compare}
    {expected runtime : WebSocketSingletonRuntimeDoc} {now : Nat} {id : String} (hr : runtimes[id]? = some runtime)
    (hne : runtime.codeVersion ≠ expected.codeVersion) :
    (retireRuntimeIfUnchanged runtimes expected now)[id]? = some runtime := by
  unfold retireRuntimeIfUnchanged
  split
  · exact hr
  next current hcurrent =>
    split
    · exact hr
    next hsame =>
      have hid : expected.singletonId ≠ id := by
        rintro rfl
        cases hr.symm.trans hcurrent
        exact hsame (.inl hne)
      split
      · rw [Std.ExtTreeMap.getElem?_erase, if_neg (by simpa using hid), hr]
      · rw [OrdMap.getElem?_insert, if_neg hid, hr]

theorem resume_docs (s : System) (k : Nat) (task : Task) (next : Option Point) :
    (s.resume k task next).docs = s.docs ∧ (s.resume k task next).runtimes = s.runtimes := by
  cases next <;> exact ⟨rfl, rfl⟩

/-- The entry of a greater version is not one that the transactions of a task change. -/
theorem setActivating_of_greater (hentry : s.docs.entry = some entry) (hk : EntryKept s.docs entry)
    (h : codeVersion < entry.codeVersion ∨ ∃ pending, entry.pendingCodeVersion = some pending ∧ codeVersion < pending) :
    (Deploy.setActivating s.docs codeVersion).entry = some entry := by
  simp only [Deploy.setActivating, hentry]
  split
  next hpending =>
    have hle := (hk.pending _ hpending.1).2
    rcases h with h | ⟨pending, hp, h⟩
    · omega
    · cases hp.symm.trans hpending.1
      exact absurd h (lt_irrefl _)
  next => exact hentry

theorem setActive_of_greater (hentry : s.docs.entry = some entry) (hk : EntryKept s.docs entry)
    (h : codeVersion < entry.codeVersion ∨ ∃ pending, entry.pendingCodeVersion = some pending ∧ codeVersion < pending) :
    (Deploy.setActive s.docs codeVersion).entry = some entry := by
  simp only [Deploy.setActive, hentry]
  split
  next hactivating =>
    rcases h with h | ⟨pending, hp, -⟩
    · omega
    · cases hactivating.2.symm.trans (hk.pending pending hp).1
  next => exact hentry

theorem safe_advance (hk : s.Kept) {k now : Nat} {task : Task} (htask : s.tasks[k]? = some task) :
    Safe s (.advance k now)
      ((s.perform now task.codeVersion task.point).1.resume k task (s.perform now task.codeVersion task.point).2) := by
  obtain ⟨entry, hentry, -, he⟩ := hk.entry
  have hknows := (hk.tasks task (List.mem_of_getElem? htask)).2
  -- it is enough to look at the documents and records after the step itself
  suffices h : Safe s (.advance k now) (s.perform now task.codeVersion task.point).1 by
    generalize s.perform now task.codeVersion task.point = result at h ⊢
    obtain ⟨hdocs, hruntimes⟩ := resume_docs result.1 k task result.2
    exact ⟨by rw [hdocs]; exact h.version, by rw [hdocs]; exact h.purged, by rw [hdocs]; exact h.entry,
      by rw [hruntimes]; exact h.runtimes⟩
  have hactor : ∀ other, s.actor (.advance k now) = some other → other = task := fun other ho => by
    cases htask.symm.trans ho
    rfl
  have hsame : Safe s (.advance k now) s := .of_docs rfl (.inr rfl)
  cases hpoint : task.point with
  | start =>
    simp only [perform, hentry]
    split
    · exact hsame
    · exact hsame
    all_goals
      split <;> exact hsame
  | prePurge userZone | postPurge userZone => cases userZone <;> exact .of_docs rfl (.inr rfl)
  | setActivating userZone =>
    refine ⟨(forward_setActivating s.docs task.codeVersion).named_le hentry he, fun e hme hstate hne => ?_,
      fun other ho e hme hgreater => ?_, fun _ _ _ _ hr _ => hr⟩
    · change (Deploy.setActivating s.docs task.codeVersion).entry = some e at hme
      change (Deploy.setActivating s.docs task.codeVersion).entry ≠ s.docs.entry at hne
      simp only [Deploy.setActivating, hentry] at hme hne
      split at hme
      · cases hme
        cases hstate
      next hnot => exact absurd (by rw [if_neg hnot, hentry]) hne
    · cases hactor other ho
      cases hentry.symm.trans hme
      exact setActivating_of_greater hentry he hgreater
  | reread userZone =>
    simp only [perform, hentry]
    split <;> exact hsame
  | setActive =>
    rw [hpoint] at hknows
    refine ⟨(forward_setActive s.docs task.codeVersion).named_le hentry he, fun e hme hstate hne => ?_,
      fun other ho e hme hgreater => ?_, fun _ _ _ _ hr _ => hr⟩
    · change (Deploy.setActive s.docs task.codeVersion).entry = some e at hme
      change (Deploy.setActive s.docs task.codeVersion).entry ≠ s.docs.entry at hne
      simp only [Deploy.setActive, hentry] at hme hne
      split at hme
      next hactivating =>
        cases hme
        exact hactivating.1 ▸ hknows.2
      next hnot => exact absurd (by rw [if_neg hnot, hentry]) hne
    · cases hactor other ho
      cases hentry.symm.trans hme
      exact setActive_of_greater hentry he hgreater
  | enqueuePrune | readConfig | readRuntimes => exact hsame
  | retire runtimeRecords declared =>
    rw [hpoint] at hknows
    cases runtimeRecords with
    | nil => exact hsame
    | cons runtime rest =>
      simp only [perform]
      split
      · refine ⟨le_rfl, fun _ _ _ hne => absurd rfl hne, fun _ _ _ hme _ => hme, fun other ho id r hr hlt => ?_⟩
        cases hactor other ho
        have hle := hknows.2 runtime List.mem_cons_self
        exact getElem?_retire hr (by omega)
      · exact hsame
  | enqueueReconcile declared => cases declared <;> exact hsame

theorem safe_of_step (hk : s.Kept) {action : Action} (h : s.step action = some t) : Safe s action t := by
  obtain ⟨entry, hentry, -, he⟩ := hk.entry
  cases action with
  | attempt i now =>
    simp only [System.step] at h
    split at h <;> cases h
    next callback hi =>
      refine ⟨(forward_bundleCompiled s.docs now _ _).named_le hentry he, fun e hme hstate hne => ?_, nofun, nofun⟩
      obtain ⟨-, -, hold⟩ := attempt_bundleCompiled hk now callback.codeVersion callback.fn0WasmtimeVersion
      exact absurd (hme.trans (hold e hme (by rw [hstate]; nofun)).symm) hne
  | advance k now =>
    simp only [System.step] at h
    split at h <;> cases h
    exact safe_advance hk ‹_›
  | enqueue j =>
    simp only [System.step] at h
    split at h
    · split at h <;> cases h
      exact .of_docs rfl (.inl rfl)
    · cases h
  | answer | deliver =>
    simp only [System.step] at h
    split at h <;> cases h
    exact .of_docs rfl (.inl rfl)
  | arrive | abandon | fail | writeRuntime | writeConfig =>
    cases h
    exact .of_docs rfl (.inl rfl)

theorem Kept.live (hk : s.Kept) : s.Live := by
  rintro ⟨hanswered, hacked⟩ v hv hgreatest
  obtain ⟨entry, hentry, -, he⟩ := hk.entry
  -- a version that was handed on and all of whose messages were handled is done with
  have hdone : ∀ v, (∃ message ∈ s.messages, message.codeVersion = v) → Done s.docs v := by
    rintro v ⟨message, hm, rfl⟩
    exact (hk.messages message hm).2 (hacked message hm)
  have hpending : entry.pendingCodeVersion = none := by
    cases hp : entry.pendingCodeVersion with
    | none => rfl
    | some pending =>
      have hruns := he.runs.resolve_right fun hfirst => by rw [hp] at hfirst; nomatch hfirst.2
      rw [target, hp, Option.getD_some] at hruns
      obtain ⟨active, hactive, hc⟩ := hruns
      obtain ⟨callback, hm, rfl, rfl⟩ := hk.compiled _ _ hc
      rcases (hk.answered callback hm (hanswered callback hm)).2 hactive with hnot | hmessage
      · exact absurd hp (hnot entry hentry)
      · exact absurd hp (hdone _ hmessage entry hentry).1
  have htarget : target entry = entry.codeVersion := by rw [target, hpending, Option.getD_none]
  refine ⟨entry, hentry, ?_, ?_⟩
  · have hle := he.greatest v hv
    rcases he.runs with hruns | hfirst
    · have := hgreatest _ hruns
      omega
    · omega
  · cases hstate : entry.staticCacheState with
    | active => rfl
    | prePurge =>
      obtain ⟨pending, hp⟩ := he.prePurge hstate
      cases hpending.symm.trans hp
    | activating => exact absurd ⟨rfl, hstate⟩ (hdone _ (hk.activating entry hentry hstate) entry hentry).2

/--
**Activation.** In every run in which no task finds a runtime record of a version greater than its own: when all
callbacks are answered and all messages handled the greatest version compiled for the active runtime is active, and each
step is safe.
-/
theorem activation_safe {domain : String} (hdomain : domain ≠ "") (activeFn0WasmtimeVersion : Option String)
    (h : Steps.Reach step Calm (start domain activeFn0WasmtimeVersion) s) :
    s.Live ∧ ∀ action t, s.step action = some t → Safe s action t := by
  have hk : s.Kept := h.invariant (kept_start hdomain activeFn0WasmtimeVersion) fun s action t hk hcalm hstep =>
    hk.step hcalm hstep
  exact ⟨hk.live, fun action t hstep => safe_of_step hk hstep⟩

/-- The record of a singleton that runs a version. -/
def chatRuntime (codeVersion : Nat) : WebSocketSingletonRuntimeDoc :=
  ⟨"chat", codeVersion, "claim", "connection", 100, .active⟩

/--
Version 1 is active and has a singleton running when version 2 is compiled. The first attempt of the second callback and
the first delivery of its message are lost half way, and both messages come once more at the end. The record of version
1 is retired.
-/
theorem second_version_active : ∃ s : System, s.Settled ∧ named s.docs = 2 ∧
    s.runtimes["chat"]? = some { chatRuntime 1 with connectionId := "", state := .terminating } ∧ s.Live := by
  have hrun : ∃ s, Steps.Reach step Calm (start "a.example" (some "r1")) s ∧ decide (s.Settled ∧ named s.docs = 2 ∧
      s.runtimes["chat"]? = some { chatRuntime 1 with connectionId := "", state := .terminating }) = true :=
    Steps.exists_reach (List.flatten [[.arrive 1 "r1", .attempt 0 0, .enqueue 0, .answer 0, .deliver 0],
      List.replicate 11 (.advance 0 0),
      [.writeRuntime "chat" (some (chatRuntime 1)), .arrive 2 "r1", .attempt 1 0, .abandon 0, .attempt 1 0, .enqueue 0,
        .answer 0, .deliver 1], List.replicate 4 (.advance 0 0), [.fail 0, .deliver 1],
      List.replicate 10 (.advance 0 10), [.deliver 0, .advance 0 10, .deliver 1], List.replicate 7 (.advance 0 10)])
      (by decide +kernel)
  obtain ⟨s, hreach, hs⟩ := hrun
  obtain ⟨hsettled, hnamed, hruntime⟩ := of_decide_eq_true hs
  exact ⟨s, hsettled, hnamed, hruntime, (activation_safe (by decide) (some "r1") hreach).1⟩

/--
A task that was overtaken. The task of version 1 has declared it active and is about to read the runtime records when
version 2 is compiled, activated and has a singleton running. The record of version 2 is not of version 1, so the task
takes it for a stale one and marks it as terminating.
-/
theorem overtaken_task_retires_newer_runtime : ∃ s action t, Steps.Reach step (fun _ _ => True)
    (start "a.example" (some "r1")) s ∧
    s.step action = some t ∧ ¬ Safe s action t := by
  have hrun : ∃ s, Steps.Reach step (fun _ _ => True) (start "a.example" (some "r1")) s ∧
      decide ((s.actor (.advance 0 10)).map Task.codeVersion = some 1 ∧ s.runtimes["chat"]? = some (chatRuntime 2) ∧
        (s.step (.advance 0 10)).map (·.runtimes["chat"]?) =
          some (some { chatRuntime 2 with connectionId := "", state := .terminating })) = true :=
    Steps.exists_reach (List.flatten [[.arrive 1 "r1", .attempt 0 0, .enqueue 0, .answer 0, .deliver 0],
      List.replicate 8 (.advance 0 0), [.arrive 2 "r1", .attempt 1 0, .enqueue 0, .answer 0, .deliver 1],
      List.replicate 6 (.advance 1 0), [.writeRuntime "chat" (some (chatRuntime 2)), .advance 0 10]])
        (by decide +kernel)
  obtain ⟨s, hreach, hs⟩ := hrun
  simp only [decide_eq_true_eq] at hs
  obtain ⟨hactor, hbefore, hafter⟩ := hs
  obtain ⟨task, htask, hversion⟩ := Option.map_eq_some_iff.mp hactor
  obtain ⟨t, hstep, ht⟩ := Option.map_eq_some_iff.mp hafter
  refine ⟨s, _, t, hreach, hstep, fun hsafe => ?_⟩
  have hkept := hsafe.runtimes task htask "chat" (chatRuntime 2) hbefore (by rw [hversion]; decide)
  rw [ht] at hkept
  exact absurd hkept (by decide)

end System

end Deploy
