/-
Collection deletes no entry of a connection that is registered, at the time or later, as long as no connection is looked
up between its publication and its registration.

A connection at a worker goes forward only. An entry says that its connection is on the way at least, and still says so
when a pass has read it; an answer without the connection says that it is gone. Both stay true.
-/
import Fn0.Control.ConnectionDirectory

namespace Control.Directory

open Std (ExtTreeMap)

/-! ## What holds in every state -/

namespace State

variable {s t : State}

/-- A connection that was drawn is at a phase at least, wherever a worker of the id runs. -/
structure AtLeast (s : State) (phase : Phase) (id workerId : String) : Prop where
  drawn : id ∈ s.drawn
  home : workerId ∈ s.homes
  reached : ∀ (endpoint : String) (worker : Worker), s.hosts[endpoint]? = some worker → worker.workerId = workerId →
    phase.rank ≤ (worker.phase id).rank

/-- A worker with an id runs at the endpoint of the id. -/
def Homed (s : State) : Prop := ∀ (endpoint : String) (worker : Worker), s.hosts[endpoint]? = some worker →
  s.homes[worker.workerId]? = some endpoint

/-- An entry of the directory, now or earlier. -/
structure Announced (s : State) (id workerId endpoint : String) : Prop where
  home : s.homes[workerId]? = some endpoint
  atLeast : s.AtLeast .onTheWay id workerId

/-- The connection is in the answer, or it is gone. -/
def Told (s : State) (workerId responder : String) (present : List String) (id : String) : Prop :=
  responder = workerId ∧ id ∈ present ∨ s.AtLeast .gone id workerId

structure GroupKept (s : State) (group : Group) : Prop where
  announced : ∀ id ∈ group.connections, s.Announced id group.workerId group.endpoint
  left : ∀ left present, group.probe = .checking left present → left ⊆ group.connections
  checking : ∀ left present, group.probe = .checking left present → ∀ id ∈ group.connections,
    id ∈ left ∨ s.Told group.workerId group.workerId present id
  answered : ∀ responder present, group.probe = .answered responder present → ∀ id ∈ group.connections,
    s.Told group.workerId responder present id

/-- What a pass has found out. -/
def PassKept (s : State) : Pass → Prop
  | .started | .cursorRead _ => True
  | .scanned page => ∀ doc ∈ page, s.Announced doc.1 doc.2.workerId doc.2.endpoint
  | .collecting groups current => (∀ group ∈ groups, s.GroupKept group) ∧
    ∀ deletions ∈ current, ∀ id ∈ deletions.left, s.Told deletions.workerId deletions.responder deletions.present id

structure Kept (s : State) : Prop where
  homed : s.Homed
  drawn : ∀ (endpoint : String) (worker : Worker) (id : String), s.hosts[endpoint]? = some worker →
    worker.establishing[id]?.isSome → id ∈ s.drawn
  directory : ∀ (id : String) (owner : ConnectionOwner), s.directory[id]? = some owner →
    s.Announced id owner.workerId owner.endpoint
  passes : ∀ (i : Nat) (pass : Pass), s.passes[i]? = some pass → s.PassKept pass
  collected : ∀ entry ∈ s.collected, s.AtLeast .gone entry.1 entry.2

/-- What was found out stays true. -/
structure Onward (s t : State) : Prop where
  homes : ∀ (workerId endpoint : String), s.homes[workerId]? = some endpoint → t.homes[workerId]? = some endpoint
  atLeast : ∀ (phase : Phase) (id workerId : String), s.AtLeast phase id workerId → t.AtLeast phase id workerId

namespace Onward

variable (h : Onward s t)
include h

theorem announced {id workerId endpoint : String} (ha : s.Announced id workerId endpoint) :
    t.Announced id workerId endpoint :=
  ⟨h.homes _ _ ha.home, h.atLeast _ _ _ ha.atLeast⟩

theorem told {workerId responder id : String} {present : List String} (ht : s.Told workerId responder present id) :
    t.Told workerId responder present id :=
  ht.imp_right (h.atLeast _ _ _)

theorem groupKept {group : Group} (hg : s.GroupKept group) : t.GroupKept group where
  announced id hid := h.announced (hg.announced id hid)
  left := hg.left
  checking left present hp id hid := (hg.checking left present hp id hid).imp_right h.told
  answered responder present hp id hid := h.told (hg.answered responder present hp id hid)

theorem passKept {pass : Pass} (hp : s.PassKept pass) : t.PassKept pass := by
  cases pass with
  | started | cursorRead => trivial
  | scanned page => exact fun doc hdoc => h.announced (hp doc hdoc)
  | collecting groups current =>
    exact ⟨fun group hgroup => h.groupKept (hp.1 group hgroup), fun deletions hd id hid => h.told
      (hp.2 deletions hd id hid)⟩

end Onward

theorem Kept.onward (h : s.Kept) (ho : Onward s t) (homed : t.Homed)
    (drawn : ∀ (endpoint : String) (worker : Worker) (id : String), t.hosts[endpoint]? = some worker →
      worker.establishing[id]?.isSome → id ∈ t.drawn)
    (directory : ∀ (id : String) (owner : ConnectionOwner), t.directory[id]? = some owner →
      s.directory[id]? = some owner ∨ t.Announced id owner.workerId owner.endpoint)
    (passes : ∀ (i : Nat) (pass : Pass), t.passes[i]? = some pass → s.passes[i]? = some pass ∨ t.PassKept pass)
    (collected : ∀ entry ∈ t.collected, entry ∈ s.collected ∨ t.AtLeast .gone entry.1 entry.2) : t.Kept where
  homed := homed
  drawn := drawn
  directory id owner hm := (directory id owner hm).elim (fun hm => ho.announced (h.directory id owner hm)) (·)
  passes i pass hm := (passes i pass hm).elim (fun hm => ho.passKept (h.passes i pass hm)) (·)
  collected entry hm := (collected entry hm).elim (fun hm => ho.atLeast _ _ _ (h.collected entry hm)) (·)

/-! ## Steps of workers -/

theorem Onward.of_same (hhosts : t.hosts = s.hosts) (hdrawn : t.drawn = s.drawn) (hhomes : t.homes = s.homes) :
    Onward s t where
  homes _ _ h := hhomes ▸ h
  atLeast _ _ _ h := ⟨hdrawn ▸ h.drawn, hhomes ▸ h.home, hhosts ▸ h.reached⟩

/-- A host that is written. -/
theorem hosts_insert {endpoint other : String} {worker worker' : Worker}
    (h : (s.hosts.insert endpoint worker)[other]? = some worker') :
    endpoint = other ∧ worker = worker' ∨ endpoint ≠ other ∧ s.hosts[other]? = some worker' := by
  rw [OrdMap.getElem?_insert] at h
  split at h
  next heq => exact .inl ⟨heq, Option.some.inj h⟩
  next hne => exact .inr ⟨hne, h⟩

theorem onward_start {endpoint workerId : String} (hnew : workerId ∉ s.homes) : Onward s { s with
    hosts := s.hosts.insert endpoint (.start workerId), homes := s.homes.insert workerId endpoint } where
  homes other home h := by
    have hne : workerId ≠ other := by
      rintro rfl
      exact hnew (ExtTreeMap.mem_iff_isSome_getElem?.mpr (by rw [h]; rfl))
    rw [OrdMap.getElem?_insert, if_neg hne, h]
  atLeast phase id other h := by
    refine ⟨h.drawn, ExtTreeMap.mem_insert.mpr (.inr h.home), fun place worker hplace hid => ?_⟩
    rcases hosts_insert hplace with ⟨rfl, rfl⟩ | ⟨-, hplace⟩
    · obtain rfl : workerId = other := hid
      exact absurd h.home hnew
    · exact h.reached place worker hplace hid

theorem onward_stop (endpoint : String) : Onward s { s with hosts := s.hosts.erase endpoint } where
  homes _ _ h := h
  atLeast _ _ _ h :=
    ⟨h.drawn, h.home, fun place worker hplace => h.reached place worker (OrdMap.getElem?_of_erase hplace)⟩

section WorkerStep

variable {endpoint : String} {worker worker' : Worker} {event : WorkerEvent} {written : Option Write}
  (hhost : s.hosts[endpoint]? = some worker) (hfresh : ∀ id, event.draws = some id → id ∉ s.drawn)
  (hstep : worker.step endpoint event = some (worker', written))
include hhost hfresh hstep

theorem onward_worker : Onward s { s with
    hosts := s.hosts.insert endpoint worker', directory := s.write written, drawn :=
      event.draws.toList ++ s.drawn } where
  homes _ _ h := h
  atLeast phase id workerId h := by
    refine ⟨List.mem_append_right _ h.drawn, h.home, fun place other hplace hid => ?_⟩
    rcases hosts_insert hplace with ⟨rfl, rfl⟩ | ⟨-, hplace⟩
    · have hforward : worker.Forward worker' id := Worker.step_forward hstep fun hdraws => hfresh id hdraws h.drawn
      exact (h.reached _ worker hhost (Worker.step_workerId hstep ▸ hid)).trans hforward.phase
    · exact h.reached place other hplace hid

theorem kept_worker (h : s.Kept) : Kept { s with
    hosts := s.hosts.insert endpoint worker', directory := s.write written, drawn :=
      event.draws.toList ++ s.drawn } := by
  have homed (place : String) (other : Worker) (hplace : (s.hosts.insert endpoint worker')[place]? = some other) :
      s.homes[other.workerId]? = some place := by
    rcases hosts_insert hplace with ⟨rfl, rfl⟩ | ⟨-, hplace⟩
    · rw [Worker.step_workerId hstep]
      exact h.homed _ _ hhost
    · exact h.homed place other hplace
  refine h.onward (onward_worker hhost hfresh hstep) homed ?_ ?_ (fun _ _ hm => .inl hm) (fun _ hm => .inl hm)
  · intro place other id hplace hid
    by_cases hdraws : event.draws = some id
    · rw [hdraws]
      exact List.mem_cons_self
    refine List.mem_append_right _ ?_
    rcases hosts_insert hplace with ⟨rfl, rfl⟩ | ⟨-, hplace⟩
    · exact h.drawn _ _ _ hhost ((Worker.step_forward hstep hdraws).establishing hid)
    · exact h.drawn place other id hplace hid
  · intro id owner hm
    cases written with
    | none => exact .inl hm
    | some write =>
      cases write with
      | delete other workerId =>
        change (s.deleteOwned other workerId)[id]? = some owner at hm
        rw [deleteOwned] at hm
        split at hm
        · exact .inl (OrdMap.getElem?_of_erase hm)
        · exact .inl hm
      | put other put =>
        change (s.directory.insert other put)[id]? = some owner at hm
        rw [OrdMap.getElem?_insert] at hm
        split at hm
        next heq =>
          subst heq
          obtain rfl := Option.some.inj hm
          obtain ⟨hworkerId, rfl, hmade, hphase⟩ := Worker.step_put hstep
          refine .inr ⟨hworkerId ▸ h.homed _ _ hhost, List.mem_append_right _ (h.drawn _ _ _ hhost hmade), ?_, ?_⟩
          · exact ExtTreeMap.mem_iff_isSome_getElem?.mpr (by rw [hworkerId, h.homed _ _ hhost]; rfl)
          · intro place running hplace hid
            -- A worker with this id runs at one endpoint.
            have hat := homed place running hplace
            rcases hosts_insert hplace with ⟨-, rfl⟩ | ⟨hne, hplace⟩
            · exact hphase
            · rw [hid, hworkerId, h.homed _ _ hhost] at hat
              exact absurd (Option.some.inj hat) hne
        · exact .inl hm

end WorkerStep

theorem kept_start {endpoint workerId : String} (h : s.Kept) (hnew : workerId ∉ s.homes) : Kept { s with
    hosts := s.hosts.insert endpoint (.start workerId), homes := s.homes.insert workerId endpoint } := by
  have ho : Onward s { s with
      hosts := s.hosts.insert endpoint (.start workerId), homes := s.homes.insert workerId endpoint } :=
        onward_start hnew
  refine h.onward ho ?_ ?_ (fun _ _ hm => .inl hm) (fun _ _ hm => .inl hm) (fun _ hm => .inl hm)
  · intro place worker hplace
    rcases hosts_insert hplace with ⟨rfl, rfl⟩ | ⟨-, hplace⟩
    · exact (OrdMap.getElem?_insert ..).trans (if_pos rfl)
    · exact ho.homes _ _ (h.homed place worker hplace)
  · intro place worker id hplace hid
    rcases hosts_insert hplace with ⟨rfl, rfl⟩ | ⟨-, hplace⟩
    · simp [Worker.start] at hid
    · exact h.drawn place worker id hplace hid

theorem kept_stop (h : s.Kept) (endpoint : String) : Kept { s with hosts := s.hosts.erase endpoint } := by
  refine h.onward (onward_stop endpoint) (fun _ _ hplace => h.homed _ _ (OrdMap.getElem?_of_erase hplace))
    (fun _ _ _ hplace => h.drawn _ _ _ (OrdMap.getElem?_of_erase hplace)) ?_ ?_ ?_
  · exact fun _ _ hm => .inl hm
  · exact fun _ _ hm => .inl hm
  · exact fun _ hm => .inl hm

/-! ## Steps of passes -/

theorem Kept.of_same (h : s.Kept) (hhosts : t.hosts = s.hosts) (hdrawn : t.drawn = s.drawn) (hhomes : t.homes = s.homes)
    (directory : ∀ (id : String) (owner : ConnectionOwner), t.directory[id]? = some owner →
      s.directory[id]? = some owner)
    (passes : ∀ (i : Nat) (pass : Pass), t.passes[i]? = some pass → s.passes[i]? = some pass ∨ s.PassKept pass)
    (collected : ∀ entry ∈ t.collected, entry ∈ s.collected ∨ s.AtLeast .gone entry.1 entry.2) : t.Kept := by
  have ho : Onward s t := .of_same hhosts hdrawn hhomes
  refine h.onward ho ?_ ?_ (fun id owner hm => .inl (directory id owner hm))
    (fun i pass hm => (passes i pass hm).imp_right ho.passKept) fun entry hm => (collected entry hm).imp_right
    (ho.atLeast _ _ _)
  · rw [Homed, hhosts, hhomes]
    exact h.homed
  · rw [hhosts, hdrawn]
    exact h.drawn

theorem Kept.goOn (h : s.Kept) (pass : Nat) {point : Pass} (hpoint : s.PassKept point) : (s.goOn pass point).Kept := by
  refine h.of_same rfl rfl rfl (fun _ _ hm => hm) (fun i other hm => ?_) fun _ hm => .inl hm
  change (s.passes.insert pass point)[i]? = some other at hm
  rw [OrdMap.getElem?_insert] at hm
  split at hm
  · cases hm
    exact .inr hpoint
  · exact .inl hm

theorem Kept.endPass (h : s.Kept) (pass : Nat) : (s.endPass pass).Kept :=
  h.of_same rfl rfl rfl (fun _ _ hm => hm) (fun _ _ hm => .inl (OrdMap.getElem?_of_erase hm)) fun _ hm => .inl hm

theorem Kept.withCursor (h : s.Kept) (cursor : Option String) : Kept { s with cursor := cursor } :=
  h.of_same rfl rfl rfl (fun _ _ hm => hm) (fun _ _ hm => .inl hm) fun _ hm => .inl hm

theorem announced_page (h : s.Kept) (cursor : Option String) :
    ∀ doc ∈ s.page cursor, s.Announced doc.1 doc.2.workerId doc.2.endpoint := by
  intro doc hdoc
  exact h.directory doc.1 doc.2 (OrdMap.mem_toList.mp (List.mem_of_mem_filter (List.mem_of_mem_take hdoc)))

theorem GroupKept.waiting {group : Group} (hprobe : group.probe = .waiting)
    (h : ∀ id ∈ group.connections, s.Announced id group.workerId group.endpoint) : s.GroupKept group where
  announced := h
  left _ _ hp := nomatch hprobe.symm.trans hp
  checking _ _ hp := nomatch hprobe.symm.trans hp
  answered _ _ hp := nomatch hprobe.symm.trans hp

/-- The groups are made of entries. -/
theorem addConnection_announced {doc : String × ConnectionOwner}
    (hdoc : s.Announced doc.1 doc.2.workerId doc.2.endpoint)
    {groups : List Group} (h : ∀ group ∈ groups, group.probe = .waiting ∧
      ∀ id ∈ group.connections, s.Announced id group.workerId group.endpoint) :
    ∀ group ∈ addConnection groups doc, group.probe = .waiting ∧
      ∀ id ∈ group.connections, s.Announced id group.workerId group.endpoint := by
  induction groups with
  | nil =>
    refine List.forall_mem_singleton.mpr ⟨rfl, List.forall_mem_singleton.mpr hdoc⟩
  | cons group groups ih =>
    obtain ⟨hgroup, hgroups⟩ := List.forall_mem_cons.mp h
    rw [addConnection]
    split
    next heq =>
      refine List.forall_mem_cons.mpr ⟨⟨hgroup.1, List.forall_mem_append.mpr ⟨hgroup.2, ?_⟩⟩, hgroups⟩
      exact List.forall_mem_singleton.mpr (heq.1 ▸ heq.2 ▸ hdoc)
    · exact List.forall_mem_cons.mpr ⟨hgroup, ih hgroups⟩

theorem groupKept_groupConnections {page : List (String × ConnectionOwner)}
    (h : ∀ doc ∈ page, s.Announced doc.1 doc.2.workerId doc.2.endpoint) :
      ∀ group ∈ groupConnections page, s.GroupKept group := by
  have hfold (groups : List Group) (hgroups : ∀ group ∈ groups, group.probe = .waiting ∧
      ∀ id ∈ group.connections, s.Announced id group.workerId group.endpoint) :
      ∀ group ∈ page.foldl addConnection groups, s.GroupKept group := by
    induction page generalizing groups with
    | nil => exact fun group hm => .waiting (hgroups group hm).1 (hgroups group hm).2
    | cons doc page ih =>
      obtain ⟨hdoc, hpage⟩ := List.forall_mem_cons.mp h
      exact ih hpage _ (addConnection_announced hdoc hgroups)
  exact hfold [] nofun

/-- What the next step of a request looks up, and where. -/
def lookup (s : State) (pass i : Nat) : Option (Worker × String) :=
  match s.passes[pass]? with
  | some (.collecting groups _) => (groups[i]?).bind fun group =>
    match s.hosts[group.endpoint]?, group.probe with
    | some worker, .checking (id :: _) _ => if worker.workerId = group.workerId then some (worker, id) else none
    | _, _ => none
  | _ => none

/-- A connection is looked up that is published and not registered yet. -/
def early (s : State) : Event → Bool
  | .gc pass (.look i) => (s.lookup pass i).any fun (worker, id) => worker.phase id = .onTheWay
  | _ => false

/-- No connection is looked up early in a run. -/
def timely (s : State) : List Event → Bool
  | [] => true
  | event :: events => !s.early event && (s.step event).all fun t => t.timely events

/-- A worker that is not the one of the entry has none of its connections. -/
theorem gone_of_replaced (h : s.Homed) {id workerId endpoint : String} (ha : s.Announced id workerId endpoint)
    {worker : Worker}
    (hhost : s.hosts[endpoint]? = some worker) (hne : worker.workerId ≠ workerId) : s.AtLeast .gone id workerId := by
  refine ⟨ha.atLeast.drawn, ha.atLeast.home, fun place other hplace hid => ?_⟩
  have hhome := h place other hplace
  rw [hid, ha.home] at hhome
  obtain rfl := Option.some.inj hhome
  rw [hplace] at hhost
  obtain rfl := Option.some.inj hhost
  exact absurd hid hne

/-- A connection that is looked up in time and is not there is gone. -/
theorem gone_of_lookup (h : s.Homed) {id workerId endpoint : String} (ha : s.Announced id workerId endpoint)
    {worker : Worker}
    (hhost : s.hosts[endpoint]? = some worker) (hid : worker.workerId = workerId)
    (habsent : worker.hasConnection id = false)
    (hne : worker.phase id ≠ .onTheWay) : s.AtLeast .gone id workerId := by
  refine ⟨ha.atLeast.drawn, ha.atLeast.home, fun place other hplace hother => ?_⟩
  have hhome := h place other hplace
  rw [hother, ha.home] at hhome
  obtain rfl := Option.some.inj hhome
  rw [hplace] at hhost
  obtain rfl := Option.some.inj hhost
  rw [Worker.gone_of_absent habsent hne (ha.atLeast.reached _ _ hplace hid)]

theorem groupKept_request (h : s.Homed) {group : Group} (hg : s.GroupKept group) {probe : Probe}
    (hp : s.request group = some probe) : s.GroupKept { group with probe := probe } := by
  rw [request] at hp
  split at hp
  next worker hhost hwaiting =>
    split at hp
    next hid =>
      cases hp
      refine ⟨hg.announced, fun left present heq => ?_, fun left present heq id hm => ?_, nofun⟩
      · cases heq
        exact List.Subset.refl _
      · cases heq
        exact .inl hm
    next hne =>
      cases hp
      refine ⟨hg.announced, nofun, nofun, fun responder present heq id hm => .inr ?_⟩
      exact gone_of_replaced h (hg.announced id hm) hhost hne
  · cases hp

theorem groupKept_look (h : s.Homed) {group : Group} (hg : s.GroupKept group) {probe : Probe}
    (htimely : ∀ worker id left present, s.hosts[group.endpoint]? = some worker →
      group.probe = .checking (id :: left) present →
      worker.workerId = group.workerId → worker.phase id ≠ .onTheWay)
    (hp : s.look group = some probe) : s.GroupKept { group with probe := probe } := by
  rw [look] at hp
  split at hp
  next worker next left present hhost hchecking =>
    split at hp
    next hid =>
      cases hp
      refine ⟨hg.announced, fun left' present' heq => ?_, fun left' present' heq id hm => ?_, nofun⟩
      · cases heq
        exact fun id hm => hg.left _ _ hchecking (List.mem_cons_of_mem _ hm)
      cases heq
      rcases hg.checking _ _ hchecking id hm with hleft | htold
      · rcases List.mem_cons.mp hleft with rfl | hleft
        · -- This is the id that was looked up.
          right
          split
          · exact .inl ⟨rfl, List.mem_append_right _ (List.mem_singleton_self _)⟩
          next habsent =>
            exact .inr (gone_of_lookup h (hg.announced id hm) hhost hid (eq_false_of_ne_true habsent)
              (htimely _ _ _ _ hhost hchecking hid))
        · exact .inl hleft
      · refine .inr (htold.imp_left fun ⟨hresponder, hpresent⟩ => ⟨hresponder, ?_⟩)
        split
        · exact List.mem_append_left _ hpresent
        · exact hpresent
    · cases hp
  · cases hp

theorem groupKept_respond {group : Group} (hg : s.GroupKept group) {present : List String}
    (hchecking : group.probe = .checking [] present) :
    s.GroupKept { group with probe := .answered group.workerId present } := by
  refine ⟨hg.announced, nofun, nofun, fun responder present' heq id hm => ?_⟩
  cases heq
  exact (hg.checking _ _ hchecking id hm).resolve_left List.not_mem_nil

/-- One probe of a pass gets on. -/
theorem kept_probe (h : s.Kept) {pass i : Nat} {groups : List Group} {current : Option Deletions}
    {step : Group → Option Probe}
    (hpass : s.PassKept (.collecting groups current))
    (hstep : ∀ group probe, groups[i]? = some group → s.GroupKept group → step group = some probe →
      s.GroupKept { group with probe := probe })
    (ht : s.probe pass i groups current step = some t) : t.Kept := by
  rw [probe] at ht
  split at ht
  · cases ht
  next group hgroup =>
    obtain ⟨probe, hprobe, rfl⟩ := Option.map_eq_some_iff.mp ht
    have hpoint : s.PassKept (.collecting (groups.set i { group with probe := probe }) current) := by
      refine ⟨fun other hother => ?_, hpass.2⟩
      rcases List.mem_or_eq_of_mem_set hother with hother | rfl
      · exact hpass.1 other hother
      · exact hstep group probe hgroup (hpass.1 group (List.mem_of_getElem? hgroup)) hprobe
    exact h.goOn pass hpoint

theorem Kept.deleteIfOwned (h : s.Kept) {id workerId : String} (hgone : s.AtLeast .gone id workerId) :
    (s.deleteIfOwned id workerId).Kept ∧ Onward s (s.deleteIfOwned id workerId) := by
  rw [State.deleteIfOwned]
  split
  · refine ⟨h.of_same rfl rfl rfl (fun _ _ => OrdMap.getElem?_of_erase) (fun _ _ hm => .inl hm) fun entry hm => ?_,
      .of_same rfl rfl rfl⟩
    rcases List.mem_cons.mp hm with rfl | hm
    · exact .inr hgone
    · exact .inl hm
  · exact ⟨h, .of_same rfl rfl rfl⟩

theorem kept_delete (h : s.Kept) {pass : Nat} {groups : List Group} {deletions : Deletions} {outcome : Outcome}
    (hpass : s.PassKept (.collecting groups (some deletions))) (ht : s.delete pass groups deletions outcome = some t) :
      t.Kept := by
  rw [delete] at ht
  split at ht
  · cases ht
  next id left hleft =>
    have hnext : s.PassKept (.collecting groups (some { deletions with left := left })) := by
      refine ⟨hpass.1, fun other hother => ?_⟩
      cases hother
      exact fun id hid => hpass.2 deletions rfl id (hleft ▸ List.mem_cons_of_mem _ hid)
    dsimp only at ht
    split at ht
    · cases ht
      exact h.goOn pass hnext
    next hpresent =>
      have hgone : s.AtLeast .gone id deletions.workerId :=
        (hpass.2 deletions rfl id (hleft ▸ List.mem_cons_self)).resolve_left hpresent
      have hdone : Kept (if outcome.isStored then s.deleteIfOwned id deletions.workerId else s) ∧
          Onward s (if outcome.isStored then s.deleteIfOwned id deletions.workerId else s) := by
        split
        · exact h.deleteIfOwned hgone
        · exact ⟨h, .of_same rfl rfl rfl⟩
      cases ht
      split
      · exact hdone.1.goOn pass (hdone.2.passKept hnext)
      · exact hdone.1.endPass pass

theorem kept_gc (h : s.Kept) {pass : Nat} {event : GcEvent} (htimely : s.early (.gc pass event) = false)
    (ht : s.gcStep pass event = some t) : t.Kept := by
  rw [gcStep.eq_def] at ht
  split at ht
  · cases ht
    exact h.goOn pass trivial
  · cases ht
    exact h.goOn pass trivial
  · cases ht
    exact h.goOn pass (announced_page h _)
  next page outcome hpage =>
    have hnext : Kept (if page.isEmpty || outcome ≠ .stored then s.endPass pass
        else s.goOn pass (.collecting (groupConnections page) none)) := by
      split
      · exact h.endPass pass
      · exact h.goOn pass ⟨groupKept_groupConnections (h.passes _ _ hpage), nofun⟩
    cases ht
    split
    · exact hnext.withCursor _
    · exact hnext
  next groups current i hpass =>
    exact kept_probe h (h.passes _ _ hpass) (fun _ _ _ hg hp => groupKept_request h.homed hg hp) ht
  next groups current i hpass =>
    refine kept_probe h (h.passes _ _ hpass) (fun group _ hgroup hg hp => groupKept_look h.homed hg ?_ hp) ht
    intro worker id left present hhost hchecking hid hphase
    have hlookup : s.lookup pass i = some (worker, id) := by
      rw [lookup, hpass]
      change (groups[i]?).bind _ = _
      rw [hgroup, Option.bind_some, hhost, hchecking]
      exact if_pos hid
    rw [early, hlookup] at htimely
    exact of_decide_eq_false htimely hphase
  next groups current i hpass =>
    refine kept_probe h (h.passes _ _ hpass) (fun group _ hgroup hg hp => ?_) ht
    split at hp
    next hchecking =>
      cases hp
      exact groupKept_respond hg hchecking
    · cases hp
  next groups current i hpass =>
    cases ht
    have hkept := h.passes _ _ hpass
    exact h.goOn pass ⟨fun group hm => hkept.1 group (List.mem_of_mem_eraseIdx hm), hkept.2⟩
  next groups i hpass =>
    have hkept := h.passes _ _ hpass
    split at ht
    next workerId endpoint connections responder present hgroup =>
      cases ht
      refine h.goOn pass ⟨fun group hm => hkept.1 group (List.mem_of_mem_eraseIdx hm), fun deletions hd => ?_⟩
      cases hd
      exact (hkept.1 _ (List.mem_of_getElem? hgroup)).answered _ _ rfl
    · cases ht
  next groups deletions outcome hpass => exact kept_delete h (h.passes _ _ hpass) ht
  next groups deletions hpass =>
    split at ht <;> cases ht
    exact h.goOn pass ⟨(h.passes _ _ hpass).1, nofun⟩
  · cases ht
    exact h.endPass pass
  · cases ht
    exact h.endPass pass
  · cases ht

/-! ## Runs -/

/-- A pass leaves the workers alone. -/
structure Same (s t : State) : Prop where
  hosts : t.hosts = s.hosts
  drawn : t.drawn = s.drawn
  homes : t.homes = s.homes

theorem Same.goOn (h : Same s t) (pass : Nat) (point : Pass) : Same s (t.goOn pass point) := ⟨h.hosts, h.drawn, h.homes⟩

theorem Same.endPass (h : Same s t) (pass : Nat) : Same s (t.endPass pass) := ⟨h.hosts, h.drawn, h.homes⟩

theorem same_deleteIfOwned (s : State) (id workerId : String) : Same s (s.deleteIfOwned id workerId) := by
  rw [State.deleteIfOwned]
  split
  · exact ⟨rfl, rfl, rfl⟩
  · exact ⟨rfl, rfl, rfl⟩

theorem same_probe {pass i : Nat} {groups : List Group} {current : Option Deletions} {step : Group → Option Probe}
    (ht : s.probe pass i groups current step = some t) : Same s t := by
  rw [probe] at ht
  split at ht
  · cases ht
  · obtain ⟨-, -, rfl⟩ := Option.map_eq_some_iff.mp ht
    exact ⟨rfl, rfl, rfl⟩

theorem same_delete {pass : Nat} {groups : List Group} {deletions : Deletions} {outcome : Outcome}
    (ht : s.delete pass groups deletions outcome = some t) : Same s t := by
  have hsame (id workerId : String) : Same s (if outcome.isStored then s.deleteIfOwned id workerId else s) := by
    split
    · exact same_deleteIfOwned s id workerId
    · exact ⟨rfl, rfl, rfl⟩
  rw [delete] at ht
  split at ht
  · cases ht
  · dsimp only at ht
    split at ht <;> cases ht
    · exact ⟨rfl, rfl, rfl⟩
    · split
      · exact (hsame ..).goOn ..
      · exact (hsame ..).endPass ..

theorem same_gcStep {pass : Nat} {event : GcEvent} (ht : s.gcStep pass event = some t) : Same s t := by
  have hsame : Same s s := ⟨rfl, rfl, rfl⟩
  rw [gcStep.eq_def] at ht
  split at ht
  · cases ht
    exact hsame.goOn ..
  · cases ht
    exact hsame.goOn ..
  · cases ht
    exact hsame.goOn ..
  next page outcome hpage =>
    have hnext : Same s (if page.isEmpty || outcome ≠ .stored then s.endPass pass
        else s.goOn pass (.collecting (groupConnections page) none)) := by
      split
      · exact hsame.endPass ..
      · exact hsame.goOn ..
    cases ht
    split
    · exact ⟨hnext.hosts, hnext.drawn, hnext.homes⟩
    · exact hnext
  · exact same_probe ht
  · exact same_probe ht
  · exact same_probe ht
  · cases ht
    exact hsame.goOn ..
  · split at ht <;> cases ht
    exact hsame.goOn ..
  · exact same_delete ht
  · split at ht <;> cases ht
    exact hsame.goOn ..
  · cases ht
    exact hsame.endPass ..
  · cases ht
    exact hsame.endPass ..
  · cases ht

/-- A step of a worker that is made. -/
theorem step_worker {endpoint : String} {event : WorkerEvent} (ht : s.step (.worker endpoint event) = some t) :
    ∃ worker worker' written, s.hosts[endpoint]? = some worker ∧ (∀ id, event.draws = some id → id ∉ s.drawn) ∧
      worker.step endpoint event = some (worker', written) ∧ t = { s with
        hosts := s.hosts.insert endpoint worker', directory := s.write written, drawn :=
          event.draws.toList ++ s.drawn } := by
  rw [step] at ht
  split at ht
  · cases ht
  next worker hhost =>
    split at ht
    · cases ht
    next hfresh =>
      obtain ⟨⟨worker', written⟩, hstep, rfl⟩ := Option.map_eq_some_iff.mp ht
      refine ⟨worker, worker', written, hhost, fun id hdraws hdrawn => hfresh ?_, hstep, rfl⟩
      rw [hdraws]
      exact decide_eq_true hdrawn

theorem step_onward {event : Event} (ht : s.step event = some t) : Onward s t := by
  cases event with
  | start endpoint workerId =>
    rw [step] at ht
    split at ht <;> cases ht
    next hnew => exact onward_start hnew
  | stop endpoint =>
    cases ht
    exact onward_stop endpoint
  | worker endpoint event =>
    obtain ⟨worker, worker', written, hhost, hfresh, hstep, rfl⟩ := step_worker ht
    exact onward_worker hhost hfresh hstep
  | gc pass event =>
    have hsame := same_gcStep ht
    exact .of_same hsame.hosts hsame.drawn hsame.homes

theorem Kept.step (h : s.Kept) {event : Event} (htimely : s.early event = false) (ht : s.step event = some t) :
    t.Kept := by
  cases event with
  | start endpoint workerId =>
    rw [State.step] at ht
    split at ht <;> cases ht
    next hnew => exact kept_start h hnew
  | stop endpoint =>
    cases ht
    exact kept_stop h endpoint
  | worker endpoint event =>
    obtain ⟨worker, worker', written, hhost, hfresh, hstep, rfl⟩ := step_worker ht
    exact kept_worker hhost hfresh hstep h
  | gc pass event => exact kept_gc h htimely ht

theorem run_cons {event : Event} {events : List Event} (h : s.run (event :: events) = some t) :
    ∃ next, s.step event = some next ∧ next.run events = some t :=
  Option.bind_eq_some_iff.mp h

theorem run_onward {events : List Event} (h : s.run events = some t) {phase : Phase} {id workerId : String}
    (ha : s.AtLeast phase id workerId) : t.AtLeast phase id workerId := by
  induction events generalizing s with
  | nil =>
    cases h
    exact ha
  | cons event events ih =>
    obtain ⟨next, hstep, hrun⟩ := run_cons h
    exact ih hrun ((step_onward hstep).atLeast _ _ _ ha)

theorem Kept.run {events : List Event} (hk : s.Kept) (htimely : s.timely events = true) (h : s.run events = some t) :
    t.Kept := by
  induction events generalizing s with
  | nil =>
    cases h
    exact hk
  | cons event events ih =>
    obtain ⟨next, hstep, hrun⟩ := run_cons h
    rw [timely, hstep] at htimely
    obtain ⟨hearly, hrest⟩ := Bool.and_eq_true_iff.mp htimely
    exact ih (hk.step ((Bool.not_eq_true' _).mp hearly) hstep) hrest hrun

theorem kept_init : init.Kept where
  homed _ _ h := by simp [init] at h
  drawn _ _ _ h := by simp [init] at h
  directory _ _ h := by simp [init] at h
  passes _ _ h := by simp [init] at h
  collected _ h := nomatch h

/-- No worker with this id has the connection. -/
def Unregistered (s : State) (id workerId : String) : Prop :=
  ∀ (endpoint : String) (worker : Worker), s.hosts[endpoint]? = some worker → worker.workerId = workerId →
    worker.hasConnection id = false

theorem AtLeast.unregistered {id workerId : String} (h : s.AtLeast .gone id workerId) : s.Unregistered id workerId :=
  fun endpoint worker hhost hid => Worker.hasConnection_of_gone (h.reached endpoint worker hhost hid)

theorem step_of_worker {endpoint : String} {worker worker' : Worker} {event : WorkerEvent} {written : Option Write}
    (hhost : s.hosts[endpoint]? = some worker) (hdraws : event.draws = none)
    (hstep : worker.step endpoint event = some (worker', written)) : s.step (.worker endpoint event) =
      some { s with hosts := s.hosts.insert endpoint worker', directory := s.write written } := by
  rw [step, hhost, hdraws]
  change Option.map _ _ = _
  rw [hstep]
  rfl

theorem exists_registered_of_upgrading {endpoint id projectId : String} {worker : Worker}
    (hhost : s.hosts[endpoint]? = some worker) (hstage : worker.establishing[id]? = some ⟨projectId, .upgrading⟩) :
    ∃ events t, s.run events = some t ∧ ¬ t.Unregistered id worker.workerId := by
  have hstep : worker.step endpoint (.upgraded id (some false)) =
      some ((worker.drop id).registerConnection id projectId false, none) := by
    rw [Worker.step, hstage]
  refine ⟨[.worker endpoint (.upgraded id (some false))],
    _, by rw [run, step_of_worker hhost rfl hstep]; rfl, fun h => ?_⟩
  have habsent := h endpoint ((worker.drop id).registerConnection id projectId false)
    ((OrdMap.getElem?_insert ..).trans (if_pos rfl)) rfl
  simp [Worker.hasConnection, Worker.registerConnection] at habsent

/-- A connection on the way can be registered yet. -/
theorem exists_registered {endpoint id : String} {worker : Worker} (hhost : s.hosts[endpoint]? = some worker)
    (hphase : worker.phase id = .onTheWay) :
    ∃ events t, s.run events = some t ∧ ¬ t.Unregistered id worker.workerId := by
  obtain ⟨projectId, hstage⟩ := Worker.stage_of_onTheWay hphase
  rcases hstage with hstage | hstage
  · have hstep : worker.step endpoint (.upgrade id true) = some (worker.moveTo id projectId .upgrading, none) := by
      rw [Worker.step, hstage]
      rfl
    have hmoved : (s.hosts.insert endpoint (worker.moveTo id projectId .upgrading))[endpoint]? =
        some (worker.moveTo id projectId .upgrading) :=
      (OrdMap.getElem?_insert ..).trans (if_pos rfl)
    have hstage' : (worker.moveTo id projectId .upgrading).establishing[id]? = some ⟨projectId, .upgrading⟩ :=
      (Worker.establishing_moveTo ..).trans (if_pos rfl)
    obtain ⟨events, t, hrun, hregistered⟩ : ∃ events t,
        State.run { s with hosts := s.hosts.insert endpoint (worker.moveTo id projectId .upgrading) } events = some t ∧
          ¬ t.Unregistered id (worker.moveTo id projectId .upgrading).workerId :=
      exists_registered_of_upgrading hmoved hstage'
    exact ⟨.worker endpoint (.upgrade id true) :: events, t,
      by rw [run, step_of_worker hhost rfl hstep]; exact hrun, hregistered⟩
  · exact exists_registered_of_upgrading hhost hstage

theorem lookup_spec {pass i : Nat} {worker : Worker} {id : String} (hk : s.Kept)
    (h : s.lookup pass i = some (worker, id)) :
    ∃ endpoint, s.hosts[endpoint]? = some worker ∧ s.Announced id worker.workerId endpoint := by
  rw [lookup] at h
  split at h
  next groups current hpass =>
    obtain ⟨group, hgroup, h⟩ := Option.bind_eq_some_iff.mp h
    split at h
    next found next left present hhost hchecking =>
      split at h
      next hid =>
        cases h
        have hg := (hk.passes _ _ hpass).1 group (List.mem_of_getElem? hgroup)
        exact ⟨group.endpoint, hhost, hid ▸ hg.announced id (hg.left _ _ hchecking List.mem_cons_self)⟩
      · cases h
    · cases h
  · cases h

/-- **Collection spares the living.** In a run that looks up no connection between its publication and its registration,
no worker has, or will have, a connection whose entry a pass has deleted. And a connection that is looked up in such a
run and not found will never be registered exactly when it was not looked up in between. -/
theorem collected_unregistered {events : List Event} (htimely : init.timely events = true)
    (hrun : init.run events = some s) :
    (∀ entry ∈ s.collected, s.Unregistered entry.1 entry.2) ∧
      ∀ (pass i : Nat) (worker : Worker) (id : String), s.lookup pass i = some (worker, id) →
        worker.hasConnection id = false →
        ((∀ later t, s.run later = some t → t.Unregistered id worker.workerId) ↔
          s.early (.gc pass (.look i)) = false) := by
  have hk : s.Kept := kept_init.run htimely hrun
  refine ⟨fun entry hentry => (hk.collected entry hentry).unregistered, fun pass i worker id hlookup habsent => ?_⟩
  obtain ⟨endpoint, hhost, hannounced⟩ := lookup_spec hk hlookup
  have hearly : s.early (.gc pass (.look i)) = decide (worker.phase id = .onTheWay) := by
    rw [early, hlookup]
    rfl
  rw [hearly, decide_eq_false_iff_not]
  constructor
  · intro hnever hphase
    obtain ⟨later, t, hrun, hregistered⟩ := exists_registered hhost hphase
    exact hregistered (hnever later t hrun)
  · intro hphase later t hlater
    exact (run_onward hlater (gone_of_lookup hk.homed hannounced hhost rfl habsent hphase)).unregistered

end State

/-- A pass of collection with one answer to one group. -/
def onePass : List Event :=
  [.start, .readCursor, .query, .putCursor .stored, .request 0, .look 0, .respond 0, .take 0, .delete .stored].map
    (.gc 0)

/-- A connection is opened by a client as far as the directory. -/
def opened : List Event :=
  [.start "worker:18445" "worker-1", .worker "worker:18445" (.accept "shop" "v1.a"),
    .worker "worker:18445" (.answered "v1.a" true), .worker "worker:18445" (.publish "v1.a" .stored)]

/-- The rest of its way. -/
def goesOn : List Event :=
  [.worker "worker:18445" (.upgrade "v1.a" true), .worker "worker:18445" (.upgraded "v1.a" (some false))]

theorem collected_unregistered_closed : ∃ s,
    State.init.run (opened ++ goesOn ++ [.worker "worker:18445" (.remove "v1.a")] ++ onePass) = some s ∧
      ("v1.a", "worker-1") ∈ s.collected ∧ s.Unregistered "v1.a" "worker-1" := by
  have hrun : (State.init.run (opened ++ goesOn ++ [.worker "worker:18445" (.remove "v1.a")] ++ onePass)).map
      State.collected = some [("v1.a", "worker-1")] := by
    decide +kernel
  obtain ⟨s, hs, hcollected⟩ := Option.map_eq_some_iff.mp hrun
  have hmem : ("v1.a", "worker-1") ∈ s.collected := by simp [hcollected]
  exact ⟨s, hs, hmem, (State.collected_unregistered (by decide +kernel) hs).1 _ hmem⟩

/-- A pass between the publication of a connection and its registration deletes its entry. -/
theorem registered_collected : (State.init.run (opened ++ onePass ++ goesOn)).any (fun s =>
    s.collected = [("v1.a", "worker-1")] && (s.directory["v1.a"]?).isNone &&
      (s.hosts["worker:18445"]?).any fun worker => worker.workerId = "worker-1" && worker.hasConnection "v1.a") =
        true := by
  decide +kernel

end Control.Directory
