/-
The directory of websocket connections: workers publish the connections they hold (worker/src/main.rs, websocket.rs),
and a pass of collection (control/rs/src/common/websocket_directory_gc.rs) deletes the entries of connections that their
worker does not know.

A connection that a client opens is published before it is registered, one that the worker opens is registered before it
is published. The steps of workers and of passes interleave as they like: a request arrives at the worker of its
endpoint, the ids of a request are looked up one after the other, a put or a delete that fails may have been stored.
Connection ids and worker ids are drawn at random; here they are new.
-/
import Fn0.Lib.MapTotal

namespace Control.Directory

open Std (ExtTreeMap)

/-! ## Workers -/

structure ConnectionOwner where
  projectId : String
  workerId : String
  endpoint : String
deriving DecidableEq

/-- How far a connection has come that is being made. -/
inductive Stage
  /-- opened by a client: the connect callback runs -/
  | connecting
  /-- the callback has accepted it -/
  | accepted
  /-- it is in the directory -/
  | published
  /-- the response to the upgrade is under way -/
  | upgrading
  /-- opened by the worker, for a singleton or not: the handshake runs -/
  | dialing (singleton : Bool)
  /-- it is registered, and a singleton waits to be activated -/
  | prepared (singleton : Bool)
  /-- it was found open and is about to be published -/
  | checked (singleton : Bool)
  /-- a singleton is in the directory, and its activation is about to be committed -/
  | committing
deriving DecidableEq

structure Attempt where
  projectId : String
  stage : Stage

/-- The part of `ConnectionEntry` that publishing reads. -/
structure ConnectionEntry where
  projectId : String
  closing : Bool

structure Worker where
  workerId : String
  establishing : ExtTreeMap String Attempt compare
  connections : ExtTreeMap String ConnectionEntry compare
  /-- Connections that are gone and whose entries are to be deleted. -/
  leaving : List String

/-- A request to the directory that fails may have been stored. -/
inductive Outcome
  | stored
  | storedButFailed
  | failed
deriving DecidableEq

def Outcome.isStored : Outcome → Bool
  | .stored | .storedButFailed => true
  | .failed => false

inductive Write
  | put (connectionId : String) (owner : ConnectionOwner)
  /-- `delete_connection`: only the entry of this worker. -/
  | delete (connectionId : String) (workerId : String)

inductive WorkerEvent
  | accept (projectId connectionId : String)
  | answered (connectionId : String) (accepts : Bool)
  | publish (connectionId : String) (outcome : Outcome)
  | upgrade (connectionId : String) (valid : Bool)
  /-- The upgrade has failed, or the connection is registered, closing when the worker drains. -/
  | upgraded (connectionId : String) (closing : Option Bool)
  | dial (projectId connectionId : String) (singleton : Bool)
  | shaken (connectionId : String) (closing : Option Bool)
  /-- The activation of a singleton gets as far as its check, or fails; others go on to the check. -/
  | check (connectionId : String) (activates : Bool)
  | announce (connectionId : String) (outcome : Outcome)
  | commitActive (connectionId : String) (active : Bool)
  | close (connectionId : String)
  | remove (connectionId : String)
  | unpublish (connectionId : String) (outcome : Outcome)

namespace Worker

def start (workerId : String) : Worker := ⟨workerId, ∅, ∅, []⟩

def hasConnection (worker : Worker) (connectionId : String) : Bool := worker.connections.contains connectionId

variable (worker : Worker) (connectionId : String)

def moveTo (projectId : String) (stage : Stage) : Worker :=
  { worker with establishing := worker.establishing.insert connectionId ⟨projectId, stage⟩ }

def drop : Worker := { worker with establishing := worker.establishing.erase connectionId }

def leave : Worker := { worker with leaving := connectionId :: worker.leaving }

def registerConnection (projectId : String) (closing : Bool) : Worker :=
  { worker with connections := worker.connections.insert connectionId ⟨projectId, closing⟩ }

def closeConnection : Worker :=
  { worker with connections := worker.connections.modify connectionId ({ · with closing := true }) }

def isOpen : Bool := (worker.connections[connectionId]?).any fun entry => !entry.closing

end Worker

/-- One step of a worker at an endpoint, and what it writes to the directory. A step that is not to be made is
`none`. -/
def Worker.step (endpoint : String) (worker : Worker) : WorkerEvent → Option (Worker × Option Write)
  | .accept projectId id => some (worker.moveTo id projectId .connecting, none)
  | .answered id accepts =>
    match worker.establishing[id]? with
    | some ⟨projectId, .connecting⟩ => some (if accepts then worker.moveTo id projectId .accepted
        else worker.drop id, none)
    | _ => none
  | .publish id outcome =>
    match worker.establishing[id]? with
    | some ⟨projectId, .accepted⟩ =>
      some (if outcome = .stored then worker.moveTo id projectId .published else worker.drop id,
        if outcome.isStored then some (.put id ⟨projectId, worker.workerId, endpoint⟩) else none)
    | _ => none
  | .upgrade id valid =>
    match worker.establishing[id]? with
    | some ⟨projectId, .published⟩ =>
      some (if valid then worker.moveTo id projectId .upgrading else (worker.drop id).leave id, none)
    | _ => none
  | .upgraded id closing =>
    match worker.establishing[id]? with
    | some ⟨projectId, .upgrading⟩ =>
      match closing with
      | none => some ((worker.drop id).leave id, none)
      | some closing => some ((worker.drop id).registerConnection id projectId closing, none)
    | _ => none
  | .dial projectId id singleton => some (worker.moveTo id projectId (.dialing singleton), none)
  | .shaken id closing =>
    match worker.establishing[id]? with
    | some ⟨projectId, .dialing singleton⟩ =>
      match closing with
      | none => some (worker.drop id, none)
      | some closing => some ((worker.moveTo id projectId (.prepared singleton)).registerConnection id
          projectId closing, none)
    | _ => none
  | .check id activates =>
    match worker.establishing[id]? with
    | some ⟨projectId, .prepared singleton⟩ =>
      if singleton && !activates then some ((worker.drop id).closeConnection id, none)
      else if worker.isOpen id then some (worker.moveTo id projectId (.checked singleton), none)
      else some (worker.drop id, none)
    | _ => none
  | .announce id outcome =>
    match worker.establishing[id]? with
    | some ⟨projectId, .checked singleton⟩ =>
      some (if outcome ≠ .stored then (worker.drop id).closeConnection id
          else if singleton then worker.moveTo id projectId .committing else worker.drop id,
        if outcome.isStored then some (.put id ⟨projectId, worker.workerId, endpoint⟩) else none)
    | _ => none
  | .commitActive id active =>
    match worker.establishing[id]? with
    | some ⟨_, .committing⟩ =>
      some (if active then worker.drop id else ((worker.drop id).leave id).closeConnection id, none)
    | _ => none
  | .close id => some (worker.closeConnection id, none)
  | .remove id =>
    if worker.hasConnection id then
      some ({ worker with connections := worker.connections.erase id, leaving := id :: worker.leaving }, none)
    else none
  | .unpublish id outcome =>
    if id ∈ worker.leaving then
      some ({ worker with leaving := worker.leaving.erase id },
        if outcome.isStored then some (.delete id worker.workerId) else none)
    else none

/-! ## Passes of collection -/

def pageLimit : Nat := 256

/-- Where the probe of a group is. -/
inductive Probe
  | waiting
  /-- The request is at the worker that it is for, which looks up the ids. -/
  | checking (left present : List String)
  | answered (workerId : String) (present : List String)
deriving DecidableEq

structure Group where
  workerId : String
  endpoint : String
  connections : List String
  probe : Probe
deriving DecidableEq

/-- The answer to a probe that is being worked through. -/
structure Deletions where
  workerId : String
  responder : String
  present : List String
  left : List String

inductive Pass
  | started
  | cursorRead (cursor : Option String)
  | scanned (page : List (String × ConnectionOwner))
  | collecting (groups : List Group) (current : Option Deletions)

def addConnection : List Group → String × ConnectionOwner → List Group
  | [], doc => [⟨doc.2.workerId, doc.2.endpoint, [doc.1], .waiting⟩]
  | group :: groups, doc =>
    if group.workerId = doc.2.workerId ∧ group.endpoint = doc.2.endpoint then
      { group with connections := group.connections ++ [doc.1] } :: groups
    else group :: addConnection groups doc

def groupConnections (page : List (String × ConnectionOwner)) : List Group := page.foldl addConnection []

inductive GcEvent
  | start
  | readCursor
  | query
  | putCursor (outcome : Outcome)
  | request (i : Nat)
  | look (i : Nat)
  | respond (i : Nat)
  | probeFails (i : Nat)
  /-- The next answer of the probes. -/
  | take (i : Nat)
  | delete (outcome : Outcome)
  | finish
  | fail

/-! ## The system -/

structure State where
  directory : ExtTreeMap String ConnectionOwner compare
  cursor : Option String
  hosts : ExtTreeMap String Worker compare
  passes : ExtTreeMap Nat Pass compare
  /-- Ghost: the connection ids that were drawn. -/
  drawn : List String
  /-- Ghost: the worker ids that were drawn, and the endpoint of each. -/
  homes : ExtTreeMap String String compare
  /-- Ghost: the entries that passes have deleted, with their worker. -/
  collected : List (String × String)

inductive Event
  | start (endpoint workerId : String)
  | stop (endpoint : String)
  | worker (endpoint : String) (event : WorkerEvent)
  | gc (pass : Nat) (event : GcEvent)

/-- The id that a step draws. -/
def WorkerEvent.draws : WorkerEvent → Option String
  | .accept _ id | .dial _ id _ => some id
  | _ => none

namespace State

def init : State := ⟨∅, none, ∅, ∅, [], ∅, []⟩

variable (s : State)

/-- The entry of a connection is deleted if it is of this worker. -/
def deleteOwned (id workerId : String) : ExtTreeMap String ConnectionOwner compare :=
  if (s.directory[id]?).any fun owner => owner.workerId = workerId then s.directory.erase id else s.directory

def write : Option Write → ExtTreeMap String ConnectionOwner compare
  | none => s.directory
  | some (.put id owner) => s.directory.insert id owner
  | some (.delete id workerId) => s.deleteOwned id workerId

/-- A pass goes on. -/
def goOn (pass : Nat) (point : Pass) : State := { s with passes := s.passes.insert pass point }

/-- A pass is over. -/
def endPass (pass : Nat) : State := { s with passes := s.passes.erase pass }

def page (cursor : Option String) : List (String × ConnectionOwner) :=
  (s.directory.toList.filter fun doc => cursor.all (· < doc.1)).take pageLimit

/-- `handle_reconcile` begins: a worker that the request is not for answers that it has none of the connections. -/
def request (group : Group) : Option Probe :=
  match s.hosts[group.endpoint]?, group.probe with
  | some worker, .waiting =>
    if worker.workerId = group.workerId then some (.checking group.connections []) else some
      (.answered worker.workerId [])
  | _, _ => none

/-- `handle_reconcile` looks up the next id. A worker that was replaced meanwhile does not. -/
def look (group : Group) : Option Probe :=
  match s.hosts[group.endpoint]?, group.probe with
  | some worker, .checking (id :: left) present =>
    if worker.workerId = group.workerId then
      some (.checking left (if worker.hasConnection id then present ++ [id] else present))
    else none
  | _, _ => none

/-- A probe of a pass gets on. -/
def probe (pass i : Nat) (groups : List Group) (current : Option Deletions) (step : Group → Option Probe) :
    Option State :=
  match groups[i]? with
  | none => none
  | some group => (step group).map fun probe =>
    s.goOn pass (.collecting (groups.set i { group with probe := probe }) current)

/-- `delete_if_owned` -/
def deleteIfOwned (id workerId : String) : State :=
  if (s.directory[id]?).any fun owner => owner.workerId = workerId then
    { s with directory := s.directory.erase id, collected := (id, workerId) :: s.collected }
  else s

/-- The next id of an answer. -/
def delete (pass : Nat) (groups : List Group) (deletions : Deletions) (outcome : Outcome) : Option State :=
  match deletions.left with
  | [] => none
  | id :: left =>
    let next := Pass.collecting groups (some { deletions with left := left })
    if deletions.responder = deletions.workerId ∧ id ∈ deletions.present then some (s.goOn pass next)
    else
      let s := if outcome.isStored then s.deleteIfOwned id deletions.workerId else s
      some (if outcome = .stored then s.goOn pass next else s.endPass pass)

def gcStep (pass : Nat) (event : GcEvent) : Option State :=
  match s.passes[pass]?, event with
  | none, .start => some (s.goOn pass .started)
  | some .started, .readCursor => some (s.goOn pass (.cursorRead s.cursor))
  | some (.cursorRead cursor), .query => some (s.goOn pass (.scanned (s.page cursor)))
  | some (.scanned page), .putCursor outcome =>
    let next := if page.isEmpty || outcome ≠ .stored then s.endPass pass
      else s.goOn pass (.collecting (groupConnections page) none)
    some (if outcome.isStored then { next with cursor := page.getLast?.map Prod.fst } else next)
  | some (.collecting groups current), .request i => s.probe pass i groups current s.request
  | some (.collecting groups current), .look i => s.probe pass i groups current s.look
  | some (.collecting groups current), .respond i => s.probe pass i groups current fun group =>
    match group.probe with
    | .checking [] present => some (.answered group.workerId present)
    | _ => none
  | some (.collecting groups current), .probeFails i => some (s.goOn pass (.collecting (groups.eraseIdx i) current))
  | some (.collecting groups none), .take i =>
    match groups[i]? with
    | some ⟨workerId, _, connections, .answered responder present⟩ =>
      some (s.goOn pass (.collecting (groups.eraseIdx i) (some ⟨workerId, responder, present, connections⟩)))
    | _ => none
  | some (.collecting groups (some deletions)), .delete outcome =>
    s.delete pass groups deletions outcome
  | some (.collecting groups (some deletions)), .finish =>
    if deletions.left = [] then some (s.goOn pass (.collecting groups none)) else none
  | some (.collecting [] none), .finish => some (s.endPass pass)
  | some _, .fail => some (s.endPass pass)
  | _, _ => none

def step (s : State) : Event → Option State
  | .start endpoint workerId =>
    if workerId ∈ s.homes then none
    else some { s with
      hosts := s.hosts.insert endpoint (.start workerId), homes := s.homes.insert workerId endpoint }
  | .stop endpoint => some { s with hosts := s.hosts.erase endpoint }
  | .worker endpoint event =>
    match s.hosts[endpoint]? with
    | none => none
    | some worker =>
      if event.draws.any (· ∈ s.drawn) then none
      else (worker.step endpoint event).map fun (worker, written) => { s with
        hosts := s.hosts.insert endpoint worker, directory := s.write written, drawn := event.draws.toList ++ s.drawn }
  | .gc pass event => s.gcStep pass event

def run (s : State) : List Event → Option State
  | [] => some s
  | event :: events => (s.step event).bind fun t => t.run events

end State

/-! ## A connection only goes forward -/

/-- Where a connection is at a worker. What was registered and is not any more is gone, and so is what never will be. -/
inductive Phase
  | opening
  | onTheWay
  | registered
  | gone
deriving DecidableEq

def Phase.rank : Phase → Nat
  | .opening => 0
  | .onTheWay => 1
  | .registered => 2
  | .gone => 3

def Stage.phase : Stage → Option Phase
  | .connecting | .accepted | .dialing _ => some .opening
  | .published | .upgrading => some .onTheWay
  | .prepared _ | .checked _ | .committing => none

namespace Worker

variable {worker worker' : Worker} {id : String}

/-- Where a connection is that is being made and was not registered yet. -/
def making (worker : Worker) (id : String) : Option Phase := (worker.establishing[id]?).bind fun attempt =>
    attempt.stage.phase

/-- What is left of a connection otherwise. -/
def rest (worker : Worker) (id : String) : Phase := if worker.hasConnection id then .registered else .gone

def phase (worker : Worker) (id : String) : Phase := (worker.making id).getD (worker.rest id)

theorem rank_rest (worker : Worker) (id : String) : Phase.registered.rank ≤ (worker.rest id).rank := by
  rw [rest]
  split <;> decide

theorem phase_of_establishing {attempt : Attempt} (h : worker.establishing[id]? = some attempt) :
    worker.phase id = attempt.stage.phase.getD (worker.rest id) := by
  rw [phase, making, h]
  rfl

theorem phase_of_none (h : worker.making id = none) : worker.phase id = worker.rest id := by
  rw [phase, h]
  rfl

theorem phase_le_rest (worker : Worker) (id : String) : (worker.phase id).rank ≤ (worker.rest id).rank := by
  have hrest := worker.rank_rest id
  cases hstage : worker.establishing[id]? with
  | none => exact (congrArg Phase.rank (phase_of_none (by rw [making, hstage]; rfl))).le
  | some attempt =>
    rw [phase_of_establishing hstage]
    cases attempt.stage <;> simp only [Stage.phase, Option.getD_some, Option.getD_none, Phase.rank] at hrest ⊢ <;> omega

/-- A connection goes forward, and if it is being made afterwards it was before. -/
structure Forward (worker worker' : Worker) (id : String) : Prop where
  phase : (worker.phase id).rank ≤ (worker'.phase id).rank
  establishing : worker'.establishing[id]?.isSome → worker.establishing[id]?.isSome

theorem Forward.trans {worker'' : Worker} (h : worker.Forward worker' id) (h' : worker'.Forward worker'' id) :
    worker.Forward worker'' id :=
  ⟨h.phase.trans h'.phase, h.establishing ∘ h'.establishing⟩

theorem forward_of_eq (hstage : worker'.establishing[id]? = worker.establishing[id]?)
    (hconnection : worker'.hasConnection id = worker.hasConnection id) : worker.Forward worker' id :=
  ⟨by rw [phase, phase, making, making, rest, rest, hstage, hconnection], fun h => hstage ▸ h⟩

theorem establishing_moveTo (worker : Worker) (other projectId : String) (stage : Stage) (id : String) :
    (worker.moveTo other projectId stage).establishing[id]? =
      if other = id then some ⟨projectId, stage⟩ else worker.establishing[id]? :=
  OrdMap.getElem?_insert _ _ _ _

theorem forward_moveTo {other projectId : String} {attempt : Attempt} {stage : Stage}
    (hstage : worker.establishing[other]? = some attempt)
    (hrank : (attempt.stage.phase.getD (worker.rest other)).rank ≤ (stage.phase.getD (worker.rest other)).rank) :
    worker.Forward (worker.moveTo other projectId stage) id := by
  by_cases hid : other = id
  · subst hid
    refine ⟨?_, fun _ => by rw [hstage]; rfl⟩
    rw [phase_of_establishing hstage, phase_of_establishing ((establishing_moveTo ..).trans (if_pos rfl))]
    exact hrank
  · exact forward_of_eq ((establishing_moveTo ..).trans (if_neg hid)) rfl

theorem establishing_drop (worker : Worker) (other id : String) :
    (worker.drop other).establishing[id]? = if other = id then none else worker.establishing[id]? :=
  OrdMap.getElem?_erase ..

theorem phase_drop (worker : Worker) (id : String) : (worker.drop id).phase id = worker.rest id :=
  phase_of_none (by rw [making, establishing_drop, if_pos rfl]; rfl)

theorem forward_drop (worker : Worker) (other id : String) : worker.Forward (worker.drop other) id := by
  by_cases hid : other = id
  · subst hid
    refine ⟨phase_drop worker other ▸ worker.phase_le_rest other, fun h => ?_⟩
    rw [establishing_drop, if_pos rfl] at h
    cases h
  · exact forward_of_eq ((establishing_drop ..).trans (if_neg hid)) rfl

theorem forward_leave (worker : Worker) (other id : String) : worker.Forward (worker.leave other) id :=
    forward_of_eq rfl rfl

theorem forward_closeConnection (worker : Worker) (other id : String) :
    worker.Forward (worker.closeConnection other) id :=
  forward_of_eq rfl (by simp [hasConnection, closeConnection, ExtTreeMap.contains_modify])

/-- A connection that is not gone can be registered. -/
theorem Forward.registerConnection {other projectId : String} {closing : Bool} (h : worker.Forward worker' id)
    (hrank : (worker.phase other).rank ≤ Phase.registered.rank) :
    worker.Forward (worker'.registerConnection other projectId closing) id := by
  have hhas : (worker'.registerConnection other projectId closing).hasConnection id =
      (decide (other = id) || worker'.hasConnection id) := by
    simp [hasConnection, Worker.registerConnection, ExtTreeMap.contains_insert, Std.LawfulEqCmp.compare_eq_iff_eq,
      Bool.beq_eq_decide_eq]
  by_cases hid : other = id
  · subst hid
    refine ⟨?_, h.establishing⟩
    cases hmaking : worker'.making other with
    | none =>
      have hphase : (worker'.registerConnection other projectId closing).phase other =
          (worker'.registerConnection other projectId closing).rest other :=
        phase_of_none hmaking
      rw [hphase]
      exact hrank.trans (rank_rest ..)
    | some phase =>
      have hsame : (worker'.registerConnection other projectId closing).phase other = worker'.phase other := by
        rw [Worker.phase, Worker.phase, hmaking]
        change (worker'.making other).getD _ = _
        rw [hmaking]
        rfl
      rw [hsame]
      exact h.phase
  · exact h.trans (forward_of_eq rfl (by rw [hhas, decide_eq_false hid, Bool.false_or]))

theorem forward_remove (worker : Worker) (other id : String) :
    worker.Forward
      { worker with connections := worker.connections.erase other, leaving := other :: worker.leaving } id := by
  refine ⟨?_, fun h => h⟩
  rw [phase, phase]
  change _ ≤ ((worker.making id).getD _).rank
  cases worker.making id with
  | some phase => exact le_rfl
  | none =>
    rw [Option.getD_none, Option.getD_none, rest, rest]
    by_cases hhas : worker.hasConnection id = true
    · rw [if_pos hhas]
      exact rank_rest _ id
    · have hstill : ¬ hasConnection
          { worker with connections := worker.connections.erase other, leaving := other :: worker.leaving } id =
            true := by
        intro h
        simp only [hasConnection, ExtTreeMap.contains_erase, Bool.and_eq_true] at h hhas
        exact hhas h.2
      rw [if_neg hhas, if_neg hstill]

/-- A step takes every connection forward but the one whose id it draws. -/
theorem step_forward {endpoint : String} {event : WorkerEvent} {written : Option Write}
    (h : worker.step endpoint event = some (worker', written)) (hdraws : event.draws ≠ some id) :
    worker.Forward worker' id := by
  cases event with
  | accept | dial =>
    cases h
    have hne := fun heq => hdraws (congrArg some heq)
    exact forward_of_eq ((establishing_moveTo ..).trans (if_neg hne)) rfl
  | answered other accepts =>
    rw [step] at h
    split at h
    · cases h
      split
      · exact forward_moveTo ‹_› (Nat.zero_le _)
      · exact forward_drop ..
    · cases h
  | publish other outcome =>
    rw [step] at h
    split at h
    · cases h
      split
      · exact forward_moveTo ‹_› (Nat.zero_le _)
      · exact forward_drop ..
    · cases h
  | upgrade other valid =>
    rw [step] at h
    split at h
    · cases h
      split
      · exact forward_moveTo ‹_› le_rfl
      · exact (forward_drop ..).trans (forward_leave ..)
    · cases h
  | upgraded other closing =>
    rw [step] at h
    split at h
    next projectId hstage =>
      split at h
      · cases h
        exact (forward_drop ..).trans (forward_leave ..)
      · cases h
        refine (forward_drop ..).registerConnection ?_
        rw [phase_of_establishing hstage]
        exact (by decide : Phase.onTheWay.rank ≤ Phase.registered.rank)
    · cases h
  | shaken other closing =>
    rw [step] at h
    split at h
    next projectId singleton hstage =>
      split at h
      · cases h
        exact forward_drop ..
      · cases h
        refine (forward_moveTo hstage (Nat.zero_le _)).registerConnection ?_
        rw [phase_of_establishing hstage]
        exact Nat.zero_le _
    · cases h
  | check other activates =>
    rw [step] at h
    split at h
    · split at h
      · cases h
        exact (forward_drop ..).trans (forward_closeConnection ..)
      · split at h <;> cases h
        · exact forward_moveTo ‹_› le_rfl
        · exact forward_drop ..
    · cases h
  | announce other outcome =>
    rw [step] at h
    split at h
    · cases h
      split
      · exact (forward_drop ..).trans (forward_closeConnection ..)
      · split
        · exact forward_moveTo ‹_› le_rfl
        · exact forward_drop ..
    · cases h
  | commitActive other active =>
    rw [step] at h
    split at h
    · cases h
      split
      · exact forward_drop ..
      · exact ((forward_drop ..).trans (forward_leave ..)).trans (forward_closeConnection ..)
    · cases h
  | close other =>
    cases h
    exact forward_closeConnection ..
  | remove other =>
    rw [step] at h
    split at h <;> cases h
    exact forward_remove ..
  | unpublish other outcome =>
    rw [step] at h
    split at h <;> cases h
    exact forward_of_eq rfl rfl

theorem step_workerId {endpoint : String} {event : WorkerEvent} {written : Option Write}
    (h : worker.step endpoint event = some (worker', written)) : worker'.workerId = worker.workerId := by
  cases event <;> rw [step] at h <;> (repeat' split at h) <;> cases h <;> rfl

/-- What a worker puts into the directory is its own, and it is on the way at least. -/
theorem step_put {endpoint : String} {event : WorkerEvent} {owner : ConnectionOwner}
    (h : worker.step endpoint event = some (worker', some (.put id owner))) :
    owner.workerId = worker.workerId ∧ owner.endpoint = endpoint ∧ worker.establishing[id]?.isSome ∧
      Phase.onTheWay.rank ≤ (worker'.phase id).rank := by
  have hrest (worker : Worker) : Phase.onTheWay.rank ≤ (worker.rest id).rank :=
    Nat.le_trans (by decide) (worker.rank_rest id)
  cases event with
  | publish other outcome =>
    rw [step] at h
    split at h
    next projectId hstage =>
      simp only [Option.some.injEq, Prod.mk.injEq] at h
      obtain ⟨rfl, hput⟩ := h
      split at hput <;> cases hput
      refine ⟨rfl, rfl, by rw [hstage]; rfl, ?_⟩
      split
      · rw [phase_of_establishing ((establishing_moveTo ..).trans (if_pos rfl))]
        exact le_rfl
      · rw [phase_drop]
        exact hrest worker
    · cases h
  | announce other outcome =>
    have hphase := (step_forward h nofun : worker.Forward worker' id).phase
    rw [step] at h
    split at h
    next projectId singleton hstage =>
      simp only [Option.some.injEq, Prod.mk.injEq] at h
      obtain ⟨-, hput⟩ := h
      split at hput <;> cases hput
      refine ⟨rfl, rfl, by rw [hstage]; rfl, ?_⟩
      rw [phase_of_establishing hstage] at hphase
      exact (hrest worker).trans hphase
    · cases h
  | unpublish other outcome =>
    rw [step] at h
    split at h
    · simp only [Option.some.injEq, Prod.mk.injEq] at h
      obtain ⟨-, hput⟩ := h
      split at hput <;> cases hput
    · cases h
  | accept | answered | upgrade | upgraded | dial | shaken | check | commitActive | close | remove =>
    rw [step] at h
    repeat' split at h
    all_goals cases h

theorem phase_cases (worker : Worker) (id : String) :
    worker.phase id = .opening ∨ worker.phase id = .onTheWay ∨ worker.phase id = worker.rest id := by
  cases hstage : worker.establishing[id]? with
  | none => exact .inr (.inr (phase_of_none (by rw [making, hstage]; rfl)))
  | some attempt =>
    rw [phase_of_establishing hstage]
    cases attempt.stage with
    | connecting | accepted | dialing => exact .inl rfl
    | published | upgrading => exact .inr (.inl rfl)
    | prepared | checked | committing => exact .inr (.inr rfl)

theorem stage_of_onTheWay (h : worker.phase id = .onTheWay) : ∃ projectId,
    worker.establishing[id]? = some ⟨projectId, .published⟩ ∨ worker.establishing[id]? = some
      ⟨projectId, .upgrading⟩ := by
  have hrest : worker.rest id ≠ .onTheWay := fun heq => absurd (heq ▸ worker.rank_rest id) (by decide)
  cases hstage : worker.establishing[id]? with
  | none => exact absurd ((phase_of_none (by rw [making, hstage]; rfl)).symm.trans h) hrest
  | some attempt =>
    obtain ⟨projectId, stage⟩ := attempt
    rw [phase_of_establishing hstage] at h
    refine ⟨projectId, ?_⟩
    cases stage with
    | connecting | accepted | dialing => cases h
    | published => exact .inl rfl
    | upgrading => exact .inr rfl
    | prepared | checked | committing => exact absurd h hrest

/-- What is gone is not registered. -/
theorem hasConnection_of_gone (h : Phase.gone.rank ≤ (worker.phase id).rank) : worker.hasConnection id = false := by
  rcases worker.phase_cases id with hphase | hphase | hphase <;> rw [hphase] at h
  · exact absurd h (by decide)
  · exact absurd h (by decide)
  · by_contra hhas
    rw [rest, if_pos (eq_true_of_ne_false hhas)] at h
    exact absurd h (by decide)

/-- What was published is gone when it is not registered and not on the way. -/
theorem gone_of_absent (habsent : worker.hasConnection id = false) (hne : worker.phase id ≠ .onTheWay)
    (h : Phase.onTheWay.rank ≤ (worker.phase id).rank) : worker.phase id = .gone := by
  rcases worker.phase_cases id with hphase | hphase | hphase
  · rw [hphase] at h
    exact absurd h (by decide)
  · exact absurd hphase hne
  · rw [hphase, rest, if_neg (by rw [habsent]; exact Bool.false_ne_true)]

end Worker

end Control.Directory
