/-
Tenant policies (signy/src/tenant_policy.rs): what the control plane pushed for each tenant, in memory and as one object
per tenant in the object store.

A change is written to the store under a lock and then swapped into memory, so changes take turns. The store may refuse
a read, refuse a write, or carry a write out and still answer with an error. A restart loads what is stored. A document
is itself and not its JSON, and a time is not its text.
-/
import Fn0.Lib.Eff
import Fn0.Lib.MapTotal
import Fn0.Lib.Steps
import Fn0.Lib.Text

namespace Signy.Policy

open Std (ExtTreeMap)
open OrdMap (getElem?_insert getElem?_erase)
open Text (trim trim_trim)

local instance transCmp_compare {ι : Type} [LinearOrder ι] : Std.TransCmp (compare : ι → ι → Ordering) := inferInstance

/-- The greatest `u64`. -/
def maxU64 : Nat := 18446744073709551615

inductive TenantRetention
  | finite (nanos : Nat)
  | infinite
deriving DecidableEq

inductive Signal
  | logs
  | traces
  | metrics
deriving DecidableEq

structure SignalRetention where
  retention : TenantRetention
  raw : Text
deriving DecidableEq

structure SignalRetentions where
  logs : Option SignalRetention := none
  traces : Option SignalRetention := none
  metrics : Option SignalRetention := none
deriving DecidableEq

def SignalRetentions.get (retentions : SignalRetentions) : Signal → Option SignalRetention
  | .logs => retentions.logs
  | .traces => retentions.traces
  | .metrics => retentions.metrics

def SignalRetentions.raw (retentions : SignalRetentions) (signal : Signal) : Option Text :=
  (retentions.get signal).map (·.raw)

structure SignalRetentionRequest where
  logs : Option Text := none
  traces : Option Text := none
  metrics : Option Text := none

inductive TenantStorageLimit
  | unlimited
  | bytes (n : Nat)
deriving DecidableEq

structure PolicyEntry where
  revision : Nat
  retention : TenantRetention
  raw : Text
  maxStoredBytes : Option TenantStorageLimit
  rawMaxStoredBytes : Option Text
  signalRetentions : SignalRetentions
  updatedAt : Nat
  projectManaged : Bool
  revokedFence : Option Nat
deriving DecidableEq

structure PolicyDocument where
  revision : Nat
  retention : Text
  maxStoredBytes : Option Text
  logRetention : Option Text
  traceRetention : Option Text
  metricRetention : Option Text
  projectManaged : Bool
  revokedFence : Option Nat
  updatedAt : Nat
deriving DecidableEq

structure PolicyView where
  revision : Nat
  retention : Text
  maxStoredBytes : Option Text
  logRetention : Option Text
  traceRetention : Option Text
  metricRetention : Option Text
  updatedAt : Nat
deriving DecidableEq

namespace PolicyEntry

def view (entry : PolicyEntry) : PolicyView :=
  ⟨entry.revision, entry.raw, entry.rawMaxStoredBytes, entry.signalRetentions.raw .logs,
    entry.signalRetentions.raw .traces,
    entry.signalRetentions.raw .metrics, entry.updatedAt⟩

/-- What is stored for an entry. -/
def document (entry : PolicyEntry) : PolicyDocument :=
  ⟨entry.revision, entry.raw, entry.rawMaxStoredBytes, entry.signalRetentions.raw .logs,
    entry.signalRetentions.raw .traces,
    entry.signalRetentions.raw .metrics, entry.projectManaged, entry.revokedFence, entry.updatedAt⟩

def retentionFor (entry : PolicyEntry) (signal : Signal) : TenantRetention :=
  ((entry.signalRetentions.get signal).map (·.retention)).getD entry.retention

end PolicyEntry

/-! ## Reading values -/

/-- `u64::from_str` after a sign. -/
def parseDigits (value : Nat) : Text → Except String Nat
  | [] => .ok value
  | c :: rest =>
    if c.isDigit then
      let value := value * 10 + (c.toNat - '0'.toNat)
      if value ≤ maxU64 then parseDigits value rest else .error "number too large to fit in target type"
    else .error "invalid digit found in string"

/-- `u64::from_str`. -/
def parseU64 : Text → Except String Nat
  | [] => .error "cannot parse integer from empty string"
  | ['+'] => .error "invalid digit found in string"
  | '+' :: digits => parseDigits 0 digits
  | digits => parseDigits 0 digits

/-- The first of some suffixes that a value has, with the value before it and what the suffix stands for. -/
def stripUnit (units : List (String × Nat)) (value : Text) : Option (Text × Nat) :=
  units.findSome? fun unit =>
    if unit.1.toList <:+ value then some (value.take (value.length - unit.1.length), unit.2) else none

def retentionUnits : List (String × Nat) :=
  [("ms", 1000000), ("s", 1000000000), ("m", 60 * 1000000000), ("h", 60 * 60 * 1000000000),
    ("d", 24 * 60 * 60 * 1000000000), ("w", 7 * 24 * 60 * 60 * 1000000000), ("y", 365 * 24 * 60 * 60 * 1000000000)]

def parseRetention (raw : Text) : Except String TenantRetention :=
  let value := trim raw
  if value.map Char.toLower = "infinite".toList then .ok .infinite
  else if value = "0".toList then .ok (.finite 0)
  else
    match stripUnit retentionUnits value with
    | none => .error "expected a duration such as 90m, 24h, 7d, or the literal \"infinite\""
    | some (number, unitNanos) => do
      let number ← parseU64 (trim number)
      if number * unitNanos ≤ maxU64 then .ok (.finite (number * unitNanos)) else .error "duration overflow"

def parseSignalRetention (retention : TenantRetention) (name : String) :
    Option Text → Except String (Option SignalRetention)
  | none => .ok none
  | some raw =>
    match parseRetention raw with
    | .error error => .error (name ++ ": " ++ error)
    | .ok signalRetention =>
      -- a tenant that is being deleted keeps nothing of any signal
      if retention = .finite 0 && !(signalRetention = .finite 0) then
        .error (name ++ ": a tenant at retention \"0\" is being deleted, so no signal may keep data")
      else .ok (some ⟨signalRetention, trim raw⟩)

def parseSignalRetentions (retention : TenantRetention) (request : SignalRetentionRequest) :
    Except String SignalRetentions := do
  let logs ← parseSignalRetention retention "log_retention" request.logs
  let traces ← parseSignalRetention retention "trace_retention" request.traces
  let metrics ← parseSignalRetention retention "metric_retention" request.metrics
  return { logs, traces, metrics }

def storageUnits : List (String × Nat) := [("KiB", 1024), ("MiB", 1024 * 1024), ("GiB", 1024 * 1024 * 1024),
    ("B", 1), ("", 1)]

def parseStorageLimit (raw : Text) : Except String TenantStorageLimit :=
  let value := trim raw
  if value.map Char.toLower = "unlimited".toList then .ok .unlimited
  else if "/s".toList <:+ value then .error "a storage limit is a size, not a rate; drop the \"/s\""
  else
    let (number, unit) := (stripUnit storageUnits value).getD (value, 1)
    match parseU64 (trim number) with
    | .error _ => .error "expected a byte size such as 512MiB, 10GiB, 0, or the literal \"unlimited\""
    | .ok number => if number * unit ≤ maxU64 then .ok (.bytes (number * unit)) else .error "storage limit overflow"

def parseLimit : Option Text → Except String (Option TenantStorageLimit)
  | none => .ok none
  | some raw => (parseStorageLimit raw).map some

/-- What a stored document says. -/
def PolicyDocument.load (document : PolicyDocument) : Except String PolicyEntry := do
  let retention ← parseRetention document.retention
  let maxStoredBytes ← parseLimit document.maxStoredBytes
  let signalRetentions ← parseSignalRetentions retention
    ⟨document.logRetention, document.traceRetention, document.metricRetention⟩
  return ⟨document.revision, retention, document.retention, maxStoredBytes, document.maxStoredBytes, signalRetentions,
    document.updatedAt, document.projectManaged, document.revokedFence⟩

/-! ## The store -/

/-- What becomes of a write. -/
inductive WriteOutcome
  | done
  | refused
  /-- carried out, and answered with an error -/
  | unanswered
deriving DecidableEq

/-- How the store serves one change. -/
structure Health where
  reads : Bool
  write : WriteOutcome
deriving DecidableEq

def healthy : Health := ⟨true, .done⟩

inductive StoreError
  | read
  | revisionConflict (current requested : Nat)
  | write
deriving DecidableEq

/-- A write in the place of what is stored for a tenant. -/
def write (outcome : WriteOutcome) (stored document : Option PolicyDocument) :
    Option PolicyDocument × Except StoreError Unit :=
  match outcome with
  | .done => (document, .ok ())
  | .refused => (stored, .error .write)
  | .unanswered => (document, .error .write)

/-- The version it writes over is the one it has read: nobody else writes. -/
def putTenantPolicyRevision (health : Health) (stored : Option PolicyDocument) (document : PolicyDocument)
    (revision : Nat) :
    Option PolicyDocument × Except StoreError Unit :=
  if !health.reads then (stored, .error .read)
  else
    match stored with
    | some current =>
      if current.revision = revision && current = document then (stored, .ok ())
      else if revision < current.revision then (stored, .error (.revisionConflict current.revision revision))
      else write health.write stored (some document)
    | none => write health.write stored (some document)

/-- What is not there counts as deleted, if the store gets to say so. -/
def deleteTenantPolicy (health : Health) (stored : Option PolicyDocument) :
    Option PolicyDocument × Except StoreError Unit :=
  write health.write stored none

/-! ## Changes -/

inductive PolicyError
  | invalid (message : String)
  | persist (error : StoreError)
  | revisionConflict (revision : Nat)
  | projectManaged
  | accessRevoked
  | fenceConflict (fence : Nat)
deriving DecidableEq

inductive PushResult
  | applied (view : PolicyView)
  | duplicate (view : PolicyView)
  | stale (view : PolicyView)
deriving DecidableEq

def samePolicyDocument (entry : PolicyEntry) (raw : Text) (rawMaxStoredBytes : Option Text)
    (signalRetentions : SignalRetentions) : Bool :=
  entry.raw = raw && entry.rawMaxStoredBytes = rawMaxStoredBytes &&
    [Signal.logs, .traces, .metrics].all fun signal => entry.signalRetentions.raw signal = signalRetentions.raw signal

structure PushRequest where
  revision : Nat
  raw : Text
  rawMaxStoredBytes : Option Text
  rawSignalRetentions : SignalRetentionRequest
  projectManaged : Bool

/-- What a push asks for, as an entry. -/
def PushRequest.entry (request : PushRequest) (now : Nat) : Except String PolicyEntry := do
  let retention ← parseRetention request.raw
  let maxStoredBytes ← parseLimit request.rawMaxStoredBytes
  let signalRetentions ← parseSignalRetentions retention request.rawSignalRetentions
  return ⟨request.revision, retention, trim request.raw, maxStoredBytes, request.rawMaxStoredBytes.map trim,
    signalRetentions, now, request.projectManaged, none⟩

/-- The policies of an instance, and the objects they are stored as. -/
structure TenantPolicy (τ : Type) [LinearOrder τ] where
  policies : ExtTreeMap τ PolicyEntry compare := ∅
  store : ExtTreeMap τ PolicyDocument compare := ∅

namespace TenantPolicy

variable {τ : Type} [LinearOrder τ]

def isTenantAllowed (s : TenantPolicy τ) (tenant : τ) : Bool := s.policies[tenant]?.any (·.revokedFence.isNone)

/-- The object of a tenant after a write. -/
def setStored (s : TenantPolicy τ) (tenant : τ) (stored : Option PolicyDocument) : TenantPolicy τ :=
  match stored with
  | none => { s with store := s.store.erase tenant }
  | some document => { s with store := s.store.insert tenant document }

/-- An entry is stored, and swapped in when that went well. -/
def persist (s : TenantPolicy τ) (tenant : τ) (entry : PolicyEntry) (health : Health) :
    TenantPolicy τ × Except PolicyError Unit :=
  match putTenantPolicyRevision health s.store[tenant]? entry.document entry.revision with
  | (stored, .error error) => (s.setStored tenant stored, .error (.persist error))
  | (stored, .ok ()) =>
    let s := s.setStored tenant stored
    ({ s with policies := s.policies.insert tenant entry }, .ok ())

/-- What a push is answered without a write, if it is. -/
def settled (current : PolicyEntry) (entry : PolicyEntry) : Option (Except PolicyError PushResult) :=
  let same := samePolicyDocument current entry.raw entry.rawMaxStoredBytes entry.signalRetentions
  if current.revokedFence.isSome then some (.error .accessRevoked)
  else if !entry.projectManaged && current.projectManaged then some (.error .projectManaged)
  else if entry.revision < current.revision then some (.ok (.stale current.view))
  else if entry.revision = current.revision then
    if same && (!entry.projectManaged || current.projectManaged) then some (.ok (.duplicate current.view))
    else if !same || !entry.projectManaged then some (.error (.revisionConflict entry.revision))
    else none
  else none

/-- `push_with_signal_retentions_managed`. -/
def push (s : TenantPolicy τ) (tenant : τ) (request : PushRequest) (now : Nat) (health : Health) :
    TenantPolicy τ × Except PolicyError PushResult :=
  match request.entry now with
  | .error message => (s, .error (.invalid message))
  | .ok entry =>
    match s.policies[tenant]?.bind (settled · entry) with
    | some answer => (s, answer)
    | none =>
      match s.persist tenant entry health with
      | (s, .error error) => (s, .error error)
      | (s, .ok ()) => (s, .ok (.applied entry.view))

/-- A tenant that is unknown is revoked at revision 0. -/
def revokedEntry (current : Option PolicyEntry) (fence now : Nat) : PolicyEntry :=
  match current with
  | some current => { current with updatedAt := now, projectManaged := true, revokedFence := some fence }
  | none => ⟨0, .infinite, "infinite".toList, none, none, {}, now, true, some fence⟩

def revokeProjectAccess (s : TenantPolicy τ) (tenant : τ) (fence now : Nat) (health : Health) :
    TenantPolicy τ × Except PolicyError Unit :=
  if fence = 0 then (s, .error (.invalid "fence must be greater than zero"))
  else
    let current := s.policies[tenant]?
    match current.bind (·.revokedFence) with
    | some currentFence =>
      if fence < currentFence then (s, .error (.fenceConflict currentFence))
      else if fence = currentFence then (s, .ok ())
      else s.persist tenant (revokedEntry current fence now) health
    | none => s.persist tenant (revokedEntry current fence now) health

def remove (s : TenantPolicy τ) (tenant : τ) (health : Health) : TenantPolicy τ × Except PolicyError Unit :=
  if s.policies[tenant]?.any (·.projectManaged) then (s, .error .projectManaged)
  else
    match deleteTenantPolicy health s.store[tenant]? with
    | (stored, .error error) => (s.setStored tenant stored, .error (.persist error))
    | (stored, .ok ()) =>
      let s := s.setStored tenant stored
      ({ s with policies := s.policies.erase tenant }, .ok ())

/-- `PolicyStore::load_all`. -/
def loadAll (store : ExtTreeMap τ PolicyDocument compare) :
    Except String (ExtTreeMap τ PolicyEntry compare) :=
  store.toList.foldlM (fun entries stored => stored.2.load.map (entries.insert stored.1)) ∅

end TenantPolicy

/-! ## Runs -/

inductive Action (τ : Type)
  | push (tenant : τ) (request : PushRequest) (now : Nat) (health : Health)
  | revoke (tenant : τ) (fence now : Nat) (health : Health)
  | remove (tenant : τ) (health : Health)
  | restart

section Runs

variable {τ : Type} [LinearOrder τ]

def step (s : TenantPolicy τ) : Action τ → Option (TenantPolicy τ)
  | .push tenant request now health => some (s.push tenant request now health).1
  | .revoke tenant fence now health => some (s.revokeProjectAccess tenant fence now health).1
  | .remove tenant health => some (s.remove tenant health).1
  | .restart => (TenantPolicy.loadAll s.store).toOption.map fun policies => { s with policies }

end Runs

/-! ## What is stored is what was read -/

@[simp] theorem parseRetention_trim (raw : Text) : parseRetention (trim raw) = parseRetention raw := by
  rw [parseRetention, parseRetention, trim_trim]

@[simp] theorem parseLimit_trim (raw : Option Text) : parseLimit (raw.map trim) = parseLimit raw := by
  cases raw with
  | none => rfl
  | some raw => rw [Option.map_some, parseLimit, parseLimit, parseStorageLimit, parseStorageLimit, trim_trim]

theorem parseSignalRetention_raw {retention : TenantRetention} {name : String} {raw : Option Text}
    {parsed : Option SignalRetention} (h : parseSignalRetention retention name raw = .ok parsed) :
    parseSignalRetention retention name (parsed.map (·.raw)) = .ok parsed := by
  cases raw with
  | none =>
    cases h
    rfl
  | some raw =>
    have hparse := h
    rw [parseSignalRetention] at h
    split at h
    next => cases h
    next signalRetention hraw =>
      split at h
      next => cases h
      next =>
        cases h
        rw [← hparse, Option.map_some, parseSignalRetention, parseSignalRetention, parseRetention_trim, trim_trim]

/-- An entry is what its document loads as. -/
def Sound (entry : PolicyEntry) : Prop := entry.document.load = .ok entry

theorem parseSignalRetentions_ok {retention : TenantRetention} {request : SignalRetentionRequest}
    {parsed : SignalRetentions} : parseSignalRetentions retention request = .ok parsed ↔
      parseSignalRetention retention "log_retention" request.logs = .ok parsed.logs ∧
        parseSignalRetention retention "trace_retention" request.traces = .ok parsed.traces ∧
        parseSignalRetention retention "metric_retention" request.metrics = .ok parsed.metrics := by
  simp only [parseSignalRetentions, Except.bind_eq_ok]
  constructor
  · rintro ⟨logs, hlogs, traces, htraces, metrics, hmetrics, h⟩
    cases h
    exact ⟨hlogs, htraces, hmetrics⟩
  · rintro ⟨hlogs, htraces, hmetrics⟩
    exact ⟨_, hlogs, _, htraces, _, hmetrics, rfl⟩

/-- The values of an entry are those of its texts. -/
theorem sound_iff {entry : PolicyEntry} : Sound entry ↔
    parseRetention entry.raw = .ok entry.retention ∧ parseLimit entry.rawMaxStoredBytes = .ok entry.maxStoredBytes ∧
      parseSignalRetentions entry.retention ⟨entry.signalRetentions.raw .logs, entry.signalRetentions.raw .traces,
        entry.signalRetentions.raw .metrics⟩ = .ok entry.signalRetentions := by
  simp only [Sound, PolicyDocument.load, PolicyEntry.document, Except.bind_eq_ok]
  constructor
  · rintro ⟨retention, hretention, limit, hlimit, retentions, hretentions, h⟩
    obtain ⟨_, _, _, _, _, _, _, _, _⟩ := entry
    cases h
    exact ⟨hretention, hlimit, hretentions⟩
  · rintro ⟨hretention, hlimit, hretentions⟩
    exact ⟨_, hretention, _, hlimit, _, hretentions, rfl⟩

theorem sound_of_request {request : PushRequest} {now : Nat} {entry : PolicyEntry} (h : request.entry now = .ok entry) :
    Sound entry := by
  simp only [PushRequest.entry, Except.bind_eq_ok] at h
  obtain ⟨retention, hretention, limit, hlimit, retentions, hretentions, h⟩ := h
  cases h
  obtain ⟨hlogs, htraces, hmetrics⟩ := parseSignalRetentions_ok.mp hretentions
  refine sound_iff.mpr ⟨(parseRetention_trim _).trans hretention, (parseLimit_trim _).trans hlimit, ?_⟩
  exact parseSignalRetentions_ok.mpr ⟨parseSignalRetention_raw hlogs, parseSignalRetention_raw htraces,
    parseSignalRetention_raw hmetrics⟩

open TenantPolicy (revokedEntry)

theorem Sound.revoked {current : Option PolicyEntry} (h : ∀ entry, current = some entry → Sound entry)
    (fence now : Nat) :
    Sound (revokedEntry current fence now) := by
  cases current with
  | none =>
    have hraw : parseRetention "infinite".toList = .ok .infinite := by decide +kernel
    exact sound_iff.mpr ⟨hraw, rfl, rfl⟩
  | some entry =>
    have hentry := sound_iff.mp (h entry rfl)
    exact sound_iff.mpr hentry

theorem Sound.load_document {entry entry' : PolicyEntry} (h : Sound entry) (hload : entry.document.load = .ok entry') :
    entry' = entry := by
  rw [h] at hload
  cases hload
  rfl

/-! ## One tenant -/

/-- What is in force for a tenant and what is stored for it. -/
abbrev Standing : Type := Option PolicyEntry × Option PolicyDocument

namespace TenantPolicy

def standing {τ : Type} [LinearOrder τ] (s : TenantPolicy τ) (tenant : τ) : Standing :=
    (s.policies[tenant]?, s.store[tenant]?)

end TenantPolicy

/-- What an entry that is written keeps of what was there. -/
structure Follows (p : Standing) (entry : PolicyEntry) : Prop where
  sound : Sound entry
  managed : entry.revokedFence.isSome = true → entry.projectManaged = true
  stored : ∀ document, p.2 = some document → document.revision ≤ entry.revision
  current : ∀ old, p.1 = some old → old.revision ≤ entry.revision
  fence : ∀ old fence, p.1 = some old → old.revokedFence = some fence →
    ∃ fence', entry.revokedFence = some fence' ∧ fence ≤ fence'

/-- The ways a tenant's policy changes and stays known; whether an answer was lost is a parameter. -/
inductive Moves (p : Standing) (lost : Prop) : Standing → Prop
  | stays : Moves p lost p
  | put {entry : PolicyEntry} (h : Follows p entry) : Moves p lost (some entry, some entry.document)
  | unanswered {entry : PolicyEntry} (h : Follows p entry) (hlost : lost) : Moves p lost (p.1, some entry.document)
  | forgotten (h : p.2 = none) : Moves p lost (none, none)
  | loaded {document : PolicyDocument} {entry : PolicyEntry} (h : p.2 = some document)
      (hload : document.load = .ok entry) :
      Moves p lost (some entry, some document)

/-- What can be relied on for a tenant, whatever the store answered. -/
structure Backed (p : Standing) : Prop where
  sound : ∀ entry, p.1 = some entry → Sound entry
  stored : ∀ document, p.2 = some document → ∃ entry, Sound entry ∧ entry.document = document ∧
    (entry.revokedFence.isSome = true → entry.projectManaged = true)
  fence : ∀ entry fence, p.1 = some entry → entry.revokedFence = some fence → entry.projectManaged = true ∧
    ∃ document fence', p.2 = some document ∧ document.revokedFence = some fence' ∧ fence ≤ fence'

theorem backed_nothing : Backed (none, none) where
  sound _ h := by cases h
  stored _ h := by cases h
  fence _ _ h := by cases h

variable {p q : Standing} {lost : Prop}

theorem Moves.imp {lost' : Prop} (h : Moves p lost q) (himp : lost → lost') : Moves p lost' q := by
  cases h with
  | stays => exact .stays
  | put h => exact .put h
  | unanswered h hlost => exact .unanswered h (himp hlost)
  | forgotten h => exact .forgotten h
  | loaded h hload => exact .loaded h hload

theorem Moves.backed (h : Moves p lost q) (hp : Backed p) : Backed q := by
  cases h with
  | stays => exact hp
  | @put entry h =>
    refine ⟨fun e he => ?_, fun d hd => ?_, fun e f he hf => ?_⟩
    · cases he
      exact h.sound
    · cases hd
      exact ⟨entry, h.sound, rfl, h.managed⟩
    · cases he
      exact ⟨h.managed (by rw [hf]; rfl), entry.document, f, rfl, hf, le_rfl⟩
  | @unanswered entry h _ =>
    refine ⟨hp.sound, fun d hd => ?_, fun e f he hf => ?_⟩
    · cases hd
      exact ⟨entry, h.sound, rfl, h.managed⟩
    · obtain ⟨fence', hfence, hle⟩ := h.fence e f he hf
      exact ⟨(hp.fence e f he hf).1, entry.document, fence', rfl, hfence, hle⟩
  | forgotten h => exact backed_nothing
  | @loaded document entry h hload =>
    obtain ⟨entry', hsound, rfl, hmanaged⟩ := hp.stored document h
    cases hsound.load_document hload
    refine ⟨fun e he => ?_, fun d hd => ?_, fun e f he hf => ?_⟩
    · cases he
      exact hsound
    · cases hd
      exact ⟨entry, hsound, rfl, hmanaged⟩
    · cases he
      exact ⟨hmanaged (by rw [hf]; rfl), entry.document, f, rfl, hf, le_rfl⟩

/-- Access is revoked. -/
def Revoked (p : Standing) : Prop := ∃ entry, p.1 = some entry ∧ entry.revokedFence.isSome = true

theorem Moves.revoked (h : Moves p lost q) (hp : Backed p) (hrevoked : Revoked p) : Revoked q := by
  obtain ⟨old, hold, hsome⟩ := hrevoked
  obtain ⟨f, hf⟩ := Option.isSome_iff_exists.mp hsome
  obtain ⟨-, stored, f', hstored, hf', -⟩ := hp.fence old f hold hf
  cases h with
  | stays => exact ⟨old, hold, hsome⟩
  | @put entry h =>
    obtain ⟨fence', hfence, -⟩ := h.fence old f hold hf
    exact ⟨entry, rfl, by rw [hfence]; rfl⟩
  | unanswered h _ => exact ⟨old, hold, hsome⟩
  | forgotten h =>
    rw [hstored] at h
    cases h
  | @loaded document entry h hload =>
    cases h.symm.trans hstored
    obtain ⟨entry', hsound, rfl, -⟩ := hp.stored _ hstored
    cases hsound.load_document hload
    exact ⟨entry, rfl, by rw [show entry.revokedFence = some f' from hf']; rfl⟩

/-- What is in force is what is stored. -/
def Synced (p : Standing) : Prop := p = (none, none) ∨ ∃ entry, Sound entry ∧ p = (some entry, some entry.document)

theorem Moves.synced (h : Moves p lost q) (hlost : ¬ lost) (hp : Backed p) (hsynced : Synced p) : Synced q := by
  cases h with
  | stays => exact hsynced
  | @put entry h => exact .inr ⟨entry, h.sound, rfl⟩
  | unanswered h hl => exact absurd hl hlost
  | forgotten h => exact .inl rfl
  | @loaded document entry h hload =>
    obtain ⟨entry', hsound, rfl, -⟩ := hp.stored document h
    cases hsound.load_document hload
    exact .inr ⟨entry, hsound, rfl⟩

/-- What is in force is stored, at its revision or a later one. -/
def Ahead (p : Standing) : Prop := ∀ entry, p.1 = some entry → ∃ document, p.2 = some document ∧
    entry.revision ≤ document.revision

theorem Moves.ahead (h : Moves p lost q) (hp : Backed p) (hahead : Ahead p) : Ahead q := by
  cases h with
  | stays => exact hahead
  | @put entry h =>
    rintro e ⟨rfl⟩
    exact ⟨_, rfl, le_rfl⟩
  | @unanswered entry h _ => exact fun e he => ⟨_, rfl, h.current e he⟩
  | forgotten h =>
    rintro e ⟨⟩
  | @loaded document entry h hload =>
    rintro e ⟨rfl⟩
    obtain ⟨entry', hsound, rfl, -⟩ := hp.stored document h
    cases hsound.load_document hload
    exact ⟨_, rfl, le_rfl⟩

theorem Moves.revision_le (h : Moves p lost q) (hp : Backed p) (hahead : Ahead p) {old : PolicyEntry}
    (hold : p.1 = some old) :
    ∃ entry, q.1 = some entry ∧ old.revision ≤ entry.revision := by
  cases h with
  | stays => exact ⟨old, hold, le_rfl⟩
  | @put entry h => exact ⟨entry, rfl, h.current old hold⟩
  | unanswered h _ => exact ⟨old, hold, le_rfl⟩
  | forgotten h =>
    obtain ⟨document, hstored, -⟩ := hahead old hold
    rw [hstored] at h
    cases h
  | @loaded document entry h hload =>
    obtain ⟨stored, hstored, hle⟩ := hahead old hold
    cases h.symm.trans hstored
    obtain ⟨entry', hsound, rfl, -⟩ := hp.stored _ hstored
    cases hsound.load_document hload
    exact ⟨entry, rfl, hle⟩

/-! ## Changes to one tenant -/

theorem putTenantPolicyRevision_cases (health : Health) (stored : Option PolicyDocument) (document : PolicyDocument)
    (revision : Nat) :
    ((putTenantPolicyRevision health stored document revision).1 = some document ∧
        ((putTenantPolicyRevision health stored document revision).2 = .ok () ∨ health.write = .unanswered) ∧
        ∀ old, stored = some old → old.revision ≤ revision) ∨
      (putTenantPolicyRevision health stored document revision).1 = stored ∧
        ∃ error, (putTenantPolicyRevision health stored document revision).2 = .error error := by
  rw [putTenantPolicyRevision.eq_def]
  split
  next => exact .inr ⟨rfl, _, rfl⟩
  next =>
    split
    next current =>
      split
      next hsame =>
        rw [Bool.and_eq_true, decide_eq_true_iff, decide_eq_true_iff] at hsame
        refine .inl ⟨congrArg some hsame.2, .inl rfl, ?_⟩
        rintro old ⟨rfl⟩
        exact hsame.1.le
      next =>
        split
        next => exact .inr ⟨rfl, _, rfl⟩
        next hle =>
          have hbelow (old : PolicyDocument) (hold : some current = some old) : old.revision ≤ revision := by
            cases hold
            exact not_lt.mp hle
          cases hwrite : health.write with
          | done => exact .inl ⟨rfl, .inl rfl, hbelow⟩
          | refused => exact .inr ⟨rfl, _, rfl⟩
          | unanswered => exact .inl ⟨rfl, .inr rfl, hbelow⟩
    next =>
      cases hwrite : health.write with
      | done => exact .inl ⟨rfl, .inl rfl, fun _ h => by cases h⟩
      | refused => exact .inr ⟨rfl, _, rfl⟩
      | unanswered => exact .inl ⟨rfl, .inr rfl, fun _ h => by cases h⟩

namespace TenantPolicy

variable {τ : Type} [LinearOrder τ] {s t : TenantPolicy τ} {tenant other : τ}

theorem policies_setStored (s : TenantPolicy τ) (tenant : τ) (stored : Option PolicyDocument) :
    (s.setStored tenant stored).policies = s.policies := by
  cases stored <;> rfl

theorem store_setStored (s : TenantPolicy τ) (tenant other : τ) (stored : Option PolicyDocument) :
    (s.setStored tenant stored).store[other]? = if tenant = other then stored else s.store[other]? := by
  cases stored with
  | none => exact getElem?_erase s.store tenant other
  | some document => exact getElem?_insert s.store tenant other document

theorem standing_setStored (s : TenantPolicy τ) (tenant : τ) (stored : Option PolicyDocument) :
    (s.setStored tenant stored).standing tenant = (s.policies[tenant]?, stored) := by
  rw [standing, policies_setStored, store_setStored, if_pos rfl]

theorem standing_setStored_of_ne (h : tenant ≠ other) (stored : Option PolicyDocument) :
    (s.setStored tenant stored).standing other = s.standing other := by
  rw [standing, policies_setStored, store_setStored, if_neg h, standing]

/-- What storing an entry comes to. -/
theorem persist_cases (s : TenantPolicy τ) (tenant : τ) (entry : PolicyEntry) (health : Health) :
    ((s.persist tenant entry health).2 = .ok () ∧
        (s.persist tenant entry health).1.standing tenant = (some entry, some entry.document) ∧
        ∀ old, s.store[tenant]? = some old → old.revision ≤ entry.revision) ∨
      (∃ error, (s.persist tenant entry health).2 = .error error) ∧
        ((s.persist tenant entry health).1.standing tenant = s.standing tenant ∨
          (s.persist tenant entry health).1.standing tenant = (s.policies[tenant]?, some entry.document) ∧
            health.write = .unanswered ∧ ∀ old, s.store[tenant]? = some old → old.revision ≤ entry.revision) := by
  have hput := putTenantPolicyRevision_cases health s.store[tenant]? entry.document entry.revision
  rw [persist]
  split
  next stored error heq =>
    rw [heq] at hput
    refine .inr ⟨⟨_, rfl⟩, ?_⟩
    rw [standing_setStored]
    rcases hput with ⟨rfl, hok | hlost, hle⟩ | ⟨rfl, -⟩
    · cases hok
    · exact .inr ⟨rfl, hlost, hle⟩
    · exact .inl rfl
  next stored heq =>
    rw [heq] at hput
    rcases hput with ⟨rfl, -, hle⟩ | ⟨-, error, herror⟩
    · refine .inl ⟨rfl, ?_, hle⟩
      dsimp only [standing]
      rw [store_setStored, if_pos rfl, policies_setStored, OrdMap.getElem?_insert_self]
    · cases herror

theorem persist_of_ne (h : tenant ≠ other) (entry : PolicyEntry) (health : Health) :
    (s.persist tenant entry health).1.standing other = s.standing other := by
  rw [persist]
  split
  next => exact standing_setStored_of_ne h _
  next =>
    dsimp only [standing]
    rw [store_setStored, if_neg h, policies_setStored, getElem?_insert, if_neg h]

/-- An entry that is stored follows what was there but for the stored revision, which the store checks. -/
theorem persist_moves (s : TenantPolicy τ) (tenant : τ) {entry : PolicyEntry} (hsound : Sound entry)
    (hmanaged : entry.revokedFence.isSome = true → entry.projectManaged = true)
    (hcurrent : ∀ old, s.policies[tenant]? = some old → old.revision ≤ entry.revision)
    (hfence : ∀ old fence, s.policies[tenant]? = some old → old.revokedFence = some fence →
      ∃ fence', entry.revokedFence = some fence' ∧ fence ≤ fence') (health : Health) :
    Moves (s.standing tenant) (health.write = .unanswered) ((s.persist tenant entry health).1.standing tenant) := by
  rcases s.persist_cases tenant entry health with ⟨-, hq, hle⟩ | ⟨-, hq | ⟨hq, hlost, hle⟩⟩
  · rw [hq]
    exact .put ⟨hsound, hmanaged, hle, hcurrent, hfence⟩
  · rw [hq]
    exact .stays
  · rw [hq]
    exact .unanswered ⟨hsound, hmanaged, hle, hcurrent, hfence⟩ hlost

/-- What a push is written over. -/
theorem settled_eq_none {current entry : PolicyEntry} (h : settled current entry = none) :
    current.revokedFence = none ∧ current.revision ≤ entry.revision := by
  rw [settled] at h
  split at h
  next => cases h
  next hfence =>
    rw [Bool.not_eq_true, Option.isSome_eq_false_iff, Option.isNone_iff_eq_none] at hfence
    split at h
    next => cases h
    next =>
      split at h
      next => cases h
      next hle => exact ⟨hfence, not_lt.mp hle⟩

theorem entry_unrevoked {request : PushRequest} {now : Nat} {entry : PolicyEntry} (h : request.entry now = .ok entry) :
    entry.revokedFence = none := by
  simp only [PushRequest.entry, Except.bind_eq_ok] at h
  obtain ⟨_, -, _, -, _, -, h⟩ := h
  cases h
  rfl

theorem push_moves (s : TenantPolicy τ) (tenant : τ) (request : PushRequest) (now : Nat) (health : Health) :
    Moves (s.standing tenant) (health.write = .unanswered) ((s.push tenant request now health).1.standing tenant) := by
  rw [push]
  split
  next => exact .stays
  next entry hentry =>
    split
    next => exact .stays
    next hsettled =>
      have hopen (old : PolicyEntry) (hold : s.policies[tenant]? = some old) :
          old.revokedFence = none ∧ old.revision ≤ entry.revision := by
        rw [hold] at hsettled
        exact settled_eq_none hsettled
      have hmoves := persist_moves s tenant (sound_of_request hentry)
        (fun h => by rw [entry_unrevoked hentry] at h; cases h) (fun old hold => (hopen old hold).2)
        (fun old fence hold hfence => by rw [(hopen old hold).1] at hfence; cases hfence) health
      split
      next heq =>
        rw [heq] at hmoves
        exact hmoves
      next heq =>
        rw [heq] at hmoves
        exact hmoves

theorem revokedEntry_follows (current : Option PolicyEntry) (fence now : Nat) :
    (revokedEntry current fence now).projectManaged = true ∧ (revokedEntry current fence now).revokedFence =
      some fence ∧
      (revokedEntry current fence now).revision = (current.map (·.revision)).getD 0 := by
  cases current with
  | none => exact ⟨rfl, rfl, rfl⟩
  | some entry => exact ⟨rfl, rfl, rfl⟩

theorem revoke_moves (hs : Backed (s.standing tenant)) (fence now : Nat) (health : Health) :
    Moves (s.standing tenant) (health.write = .unanswered)
      ((s.revokeProjectAccess tenant fence now health).1.standing tenant) := by
  obtain ⟨hmanaged, hfence, hrevision⟩ := revokedEntry_follows s.policies[tenant]? fence now
  have hmoves (hold : ∀ old fence', s.policies[tenant]? = some old → old.revokedFence = some fence' → fence' ≤ fence) :
      Moves (s.standing tenant) (health.write = .unanswered)
        ((s.persist tenant (revokedEntry s.policies[tenant]? fence now) health).1.standing tenant) := by
    have hsound : Sound (revokedEntry s.policies[tenant]? fence now) := .revoked hs.sound fence now
    refine persist_moves s tenant hsound (fun _ => hmanaged) (fun old h => ?_)
      (fun old fence' h h' => ⟨fence, hfence, hold old fence' h h'⟩) health
    rw [hrevision, h]
    rfl
  rw [revokeProjectAccess]
  split
  next => exact .stays
  next =>
    dsimp only
    split
    next currentFence hcurrent =>
      obtain ⟨current, hentry, hfenced⟩ := Option.bind_eq_some_iff.mp hcurrent
      split
      next => exact .stays
      next hle =>
        split
        next => exact .stays
        next =>
          refine hmoves fun old fence' hold hfence' => ?_
          rw [hentry] at hold
          cases hold
          rw [hfenced] at hfence'
          cases hfence'
          exact not_lt.mp hle
    next hnone =>
      refine hmoves fun old fence' hold hfence' => ?_
      rw [hold, Option.bind_some, hfence'] at hnone
      cases hnone

theorem push_of_ne (h : tenant ≠ other) (request : PushRequest) (now : Nat) (health : Health) :
    (s.push tenant request now health).1.standing other = s.standing other := by
  rw [push]
  split
  next => rfl
  next entry _ =>
    split
    next => rfl
    next =>
      have hother := persist_of_ne (s := s) h entry health
      split
      next heq =>
        rw [heq] at hother
        exact hother
      next heq =>
        rw [heq] at hother
        exact hother

theorem revoke_of_ne (h : tenant ≠ other) (fence now : Nat) (health : Health) :
    (s.revokeProjectAccess tenant fence now health).1.standing other = s.standing other := by
  rw [revokeProjectAccess]
  split
  next => rfl
  next =>
    dsimp only
    split
    next =>
      split
      next => rfl
      next =>
        split
        next => rfl
        next => exact persist_of_ne h _ health
    next => exact persist_of_ne h _ health

theorem remove_of_ne (h : tenant ≠ other) (health : Health) :
    (s.remove tenant health).1.standing other = s.standing other := by
  rw [remove]
  split
  next => rfl
  next =>
    split
    next => exact standing_setStored_of_ne h _
    next =>
      dsimp only [standing]
      rw [store_setStored, if_neg h, policies_setStored, getElem?_erase, if_neg h]

/-- What a removal comes to. -/
theorem remove_cases (s : TenantPolicy τ) (tenant : τ) (health : Health) :
    (s.remove tenant health).1.standing tenant = s.standing tenant ∧
    (∃ error, (s.remove tenant health).2 = .error error) ∨
      (∀ entry, s.policies[tenant]? = some entry → entry.projectManaged = false) ∧
        ((s.remove tenant health).1.standing tenant = (none, none) ∧ (s.remove tenant health).2 = .ok () ∨
          (health.write = .unanswered ∧ ∃ error, (s.remove tenant health).2 = .error error) ∧
            (s.remove tenant health).1.standing tenant = (s.policies[tenant]?, none)) := by
  rw [remove]
  split
  next => exact .inl ⟨rfl, _, rfl⟩
  next hmanaged =>
    have hentry (entry : PolicyEntry) (h : s.policies[tenant]? = some entry) : entry.projectManaged = false := by
      rw [h] at hmanaged
      exact Bool.eq_false_of_not_eq_true hmanaged
    rw [deleteTenantPolicy]
    cases hwrite : health.write with
    | done =>
      refine .inr ⟨hentry, .inl ⟨?_, rfl⟩⟩
      dsimp only [Policy.write, standing]
      rw [store_setStored, if_pos rfl, policies_setStored, OrdMap.getElem?_erase_self]
    | refused => exact .inl ⟨standing_setStored s tenant _, _, rfl⟩
    | unanswered => exact .inr ⟨hentry, .inr ⟨⟨rfl, _, rfl⟩, standing_setStored s tenant none⟩⟩

theorem remove_backed (hs : Backed (s.standing tenant)) (health : Health) :
    Backed ((s.remove tenant health).1.standing tenant) := by
  rcases s.remove_cases tenant health with ⟨hq, -⟩ | ⟨hmanaged, ⟨hq, -⟩ | ⟨-, hq⟩⟩
  · rwa [hq]
  · rw [hq]
    exact backed_nothing
  · rw [hq]
    refine ⟨hs.sound, fun _ h => (by cases h), fun entry fence hentry hfence => ?_⟩
    have hmanaged' := (hs.fence entry fence hentry hfence).1
    rw [hmanaged entry hentry] at hmanaged'
    cases hmanaged'

/-! ## Restarts -/

theorem foldlM_load {stored : List (τ × PolicyDocument)} (hnodup : (stored.map Prod.fst).Nodup)
    (hloads : ∀ p ∈ stored, ∃ entry, p.2.load = .ok entry) (entries : ExtTreeMap τ PolicyEntry compare) :
    ∃ loaded, stored.foldlM (fun entries p => p.2.load.map (entries.insert p.1)) entries = .ok loaded ∧
      (∀ tenant, tenant ∉ stored.map Prod.fst → loaded[tenant]? = entries[tenant]?) ∧
      ∀ p ∈ stored, ∃ entry, p.2.load = .ok entry ∧ loaded[p.1]? = some entry := by
  induction stored generalizing entries with
  | nil => exact ⟨entries, rfl, fun _ _ => rfl, fun _ h => by cases h⟩
  | cons p stored ih =>
    obtain ⟨entry, hentry⟩ := hloads p List.mem_cons_self
    rw [List.map_cons, List.nodup_cons] at hnodup
    obtain ⟨loaded, hfold, hrest, hall⟩ := ih hnodup.2 (fun q hq => hloads q (List.mem_cons_of_mem _ hq))
      (entries.insert p.1 entry)
    refine ⟨loaded, ?_, fun tenant hnot => ?_, fun q hq => ?_⟩
    · rw [List.foldlM_cons, hentry]
      exact hfold
    · rw [List.map_cons, List.mem_cons, not_or] at hnot
      rw [hrest tenant hnot.2, getElem?_insert, if_neg (Ne.symm hnot.1)]
    · rcases List.mem_cons.mp hq with rfl | hq
      · exact ⟨entry, hentry, by rw [hrest _ hnodup.1, OrdMap.getElem?_insert_self]⟩
      · exact hall q hq

/-- What is stored loads, one tenant at a time. -/
theorem loadAll_ok (hs : ∀ tenant, Backed (s.standing tenant)) : ∃ policies, loadAll s.store = .ok policies ∧
    ∀ tenant : τ, s.store[tenant]? = none ∧ policies[tenant]? = none ∨
      ∃ document entry, s.store[tenant]? = some document ∧ document.load = .ok entry ∧
        policies[tenant]? = some entry := by
  have hloads : ∀ p ∈ s.store.toList, ∃ entry, p.2.load = .ok entry := by
    intro p hp
    obtain ⟨entry, hsound, hdocument, -⟩ := (hs p.1).stored p.2 (OrdMap.mem_toList.mp hp)
    exact ⟨entry, by rw [← hdocument]; exact hsound⟩
  have hnodup : (s.store.toList.map Prod.fst).Nodup :=
    List.pairwise_map.mpr ((OrdMap.toList_sorted s.store).imp fun h => h.ne)
  obtain ⟨policies, hfold, hrest, hall⟩ := foldlM_load hnodup hloads ∅
  refine ⟨policies, hfold, fun tenant => ?_⟩
  cases hstored : s.store[tenant]? with
  | none =>
    have hnot : tenant ∉ s.store.toList.map Prod.fst := by
      intro hmem
      obtain ⟨⟨_, document⟩, hp, rfl⟩ := List.mem_map.mp hmem
      rw [OrdMap.mem_toList.mp hp] at hstored
      cases hstored
    exact .inl ⟨rfl, hrest tenant hnot⟩
  | some document =>
    obtain ⟨entry, hload, hentry⟩ := hall (tenant, document) (OrdMap.mem_toList.mpr hstored)
    exact .inr ⟨document, entry, rfl, hload, hentry⟩

end TenantPolicy

/-! ## Runs -/

section Steps

variable {τ : Type} [LinearOrder τ] {s t : TenantPolicy τ} {tenant : τ} {action : Action τ}

/-- The store carries out what it is asked for the tenant and answers with an error. -/
def Action.Loses (tenant : τ) : Action τ → Prop
  | .push other _ _ health | .revoke other _ _ health | .remove other health =>
    other = tenant ∧ health.write = .unanswered
  | .restart => False

/-- Every action moves every tenant, but for removals. -/
theorem step_moves (hs : ∀ tenant, Backed (s.standing tenant)) (hstep : step s action = some t)
    (hremoval : ∀ health, action = .remove tenant health → t.standing tenant = s.standing tenant) :
    Moves (s.standing tenant) (action.Loses tenant) (t.standing tenant) := by
  cases action with
  | push other request now health =>
    cases hstep
    by_cases h : other = tenant
    · subst h
      exact (s.push_moves other request now health).imp fun hlost => ⟨rfl, hlost⟩
    · rw [TenantPolicy.push_of_ne h]
      exact .stays
  | revoke other fence now health =>
    cases hstep
    by_cases h : other = tenant
    · subst h
      exact (TenantPolicy.revoke_moves (hs other) fence now health).imp fun hlost => ⟨rfl, hlost⟩
    · rw [TenantPolicy.revoke_of_ne h]
      exact .stays
  | remove other health =>
    by_cases h : other = tenant
    · subst h
      rw [hremoval health rfl]
      exact .stays
    · cases hstep
      rw [TenantPolicy.remove_of_ne h]
      exact .stays
  | restart =>
    obtain ⟨policies, hload, hall⟩ := TenantPolicy.loadAll_ok hs
    rw [step, hload] at hstep
    cases hstep
    rcases hall tenant with ⟨hstored, hpolicy⟩ | ⟨document, entry, hstored, hentry, hpolicy⟩
    · rw [show TenantPolicy.standing { s with policies } tenant = (none, none) from Prod.ext hpolicy hstored]
      exact .forgotten hstored
    · rw [show TenantPolicy.standing { s with policies } tenant = (some entry, some document) from Prod.ext
        hpolicy hstored]
      exact .loaded hstored hentry

theorem step_backed (hs : ∀ tenant, Backed (s.standing tenant)) (hstep : step s action = some t) (tenant : τ) :
    Backed (t.standing tenant) := by
  by_cases hremove : ∃ health, action = .remove tenant health
  · obtain ⟨health, rfl⟩ := hremove
    cases hstep
    exact TenantPolicy.remove_backed (hs tenant) health
  · exact (step_moves hs hstep fun health h => absurd ⟨health, h⟩ hremove).backed (hs tenant)

/-- What is reached from a state by any actions. -/
abbrev Runs (s t : TenantPolicy τ) : Prop := Steps.Reach step (fun _ _ => True) s t

theorem Runs.backed (h : Runs s t) (hs : ∀ tenant, Backed (s.standing tenant)) (tenant : τ) :
    Backed (t.standing tenant) :=
  h.invariant (P := fun t => ∀ tenant, Backed (t.standing tenant)) hs
    (fun _ _ _ hs _ hstep => step_backed hs hstep) tenant

theorem backed_start (tenant : τ) : Backed (({} : TenantPolicy τ).standing tenant) := backed_nothing

theorem not_allowed_of_revoked (h : Revoked (s.standing tenant)) : s.isTenantAllowed tenant = false := by
  obtain ⟨entry, hentry, hsome⟩ := h
  rw [TenantPolicy.isTenantAllowed, show s.policies[tenant]? = some entry from hentry, Option.any_some,
    ← Option.not_isSome, hsome]
  rfl

/-- A revoked tenant is not removed. -/
theorem step_revoked (hs : ∀ tenant, Backed (s.standing tenant)) (hrevoked : Revoked (s.standing tenant))
    (hstep : step s action = some t) : Revoked (t.standing tenant) := by
  refine (step_moves hs hstep ?_).revoked (hs tenant) hrevoked
  rintro health rfl
  cases hstep
  obtain ⟨entry, hentry, hsome⟩ := hrevoked
  obtain ⟨fence, hfence⟩ := Option.isSome_iff_exists.mp hsome
  have hmanaged := ((hs tenant).fence entry fence hentry hfence).1
  rcases s.remove_cases tenant health with ⟨hq, -⟩ | ⟨hunmanaged, -⟩
  · exact hq
  · rw [hunmanaged entry hentry] at hmanaged
    cases hmanaged

theorem Runs.revoked (h : Runs s t) (hs : ∀ tenant, Backed (s.standing tenant))
    (hrevoked : Revoked (s.standing tenant)) :
    Revoked (t.standing tenant) := by
  have hboth := h.invariant (P := fun t => (∀ tenant, Backed (t.standing tenant)) ∧ Revoked (t.standing tenant))
    ⟨hs, hrevoked⟩ fun s _ _ hs _ hstep => ⟨step_backed hs.1 hstep, step_revoked hs.1 hs.2 hstep⟩
  exact hboth.2

/-- A revocation that is answered Ok has its fence in force, or finds it there. -/
theorem revoke_ok {fence now : Nat} {health : Health}
    (h : s.revokeProjectAccess tenant fence now health = (t, .ok ())) :
    t = s ∧ (∃ entry, s.policies[tenant]? = some entry ∧ entry.revokedFence = some fence) ∨
      ∃ entry, t.standing tenant = (some entry, some entry.document) ∧ entry.revokedFence = some fence := by
  have hpersist (h : s.persist tenant (revokedEntry s.policies[tenant]? fence now) health = (t, .ok ())) :
      ∃ entry, t.standing tenant = (some entry, some entry.document) ∧ entry.revokedFence = some fence := by
    have hcases := s.persist_cases tenant (revokedEntry s.policies[tenant]? fence now) health
    rw [h] at hcases
    rcases hcases with ⟨-, hstanding, -⟩ | ⟨⟨error, herror⟩, -⟩
    · exact ⟨_, hstanding, (TenantPolicy.revokedEntry_follows _ fence now).2.1⟩
    · cases herror
  rw [TenantPolicy.revokeProjectAccess] at h
  split at h
  next => cases h
  next =>
    dsimp only at h
    split at h
    next currentFence hcurrent =>
      obtain ⟨current, hentry, hfenced⟩ := Option.bind_eq_some_iff.mp hcurrent
      split at h
      next => cases h
      next =>
        split at h
        next heq =>
          cases h
          exact .inl ⟨rfl, current, hentry, by rw [hfenced, heq]⟩
        next => exact .inr (hpersist h)
    next => exact .inr (hpersist h)

theorem revoke_ok_revoked {fence now : Nat} {health : Health}
    (h : s.revokeProjectAccess tenant fence now health = (t, .ok ())) : Revoked (t.standing tenant) := by
  rcases revoke_ok h with ⟨rfl, entry, hentry, hfence⟩ | ⟨entry, hstanding, hfence⟩
  · exact ⟨entry, hentry, by rw [hfence]; rfl⟩
  · exact ⟨entry, by rw [hstanding], by rw [hfence]; rfl⟩

theorem push_applied {request : PushRequest} {now : Nat} {health : Health} {view : PolicyView}
    (h : s.push tenant request now health = (t, .ok (.applied view))) :
    ∃ entry, t.standing tenant = (some entry, some entry.document) ∧ entry.view = view := by
  rw [TenantPolicy.push] at h
  split at h
  next => cases h
  next entry _ =>
    split at h
    next answer hanswer =>
      cases h
      obtain ⟨current, -, hsettled⟩ := Option.bind_eq_some_iff.mp hanswer
      rw [TenantPolicy.settled] at hsettled
      repeat' split at hsettled
      all_goals cases hsettled
    next =>
      have hcases := s.persist_cases tenant entry health
      split at h
      next => cases h
      next heq =>
        cases h
        rw [heq] at hcases
        rcases hcases with ⟨-, hstanding, -⟩ | ⟨⟨error, herror⟩, -⟩
        · exact ⟨entry, hstanding, rfl⟩
        · cases herror

/-- A restart finds what is in force, if that is what is stored. -/
theorem restart_loads (hs : ∀ tenant, Backed (s.standing tenant)) : ∃ t, step s .restart = some t ∧
    ∀ tenant : τ, (s.store[tenant]? = none → t.policies[tenant]? = none) ∧
      ∀ entry : PolicyEntry, Sound entry → s.store[tenant]? = some entry.document →
        t.policies[tenant]? = some entry := by
  obtain ⟨policies, hload, hall⟩ := TenantPolicy.loadAll_ok hs
  refine ⟨{ s with policies }, by rw [step, hload]; rfl, fun tenant => ?_⟩
  rcases hall tenant with ⟨hstored, hpolicy⟩ | ⟨document, entry, hstored, hentry, hpolicy⟩
  · refine ⟨fun _ => hpolicy, fun entry _ hdocument => ?_⟩
    rw [hstored] at hdocument
    cases hdocument
  · refine ⟨fun hnone => ?_, fun entry' hsound hdocument => ?_⟩
    · rw [hstored] at hnone
      cases hnone
    · rw [hstored] at hdocument
      cases hdocument
      cases hsound.load_document hentry
      exact hpolicy

/-- A push that is answered as a duplicate changes nothing, and shows what is in force. -/
theorem push_duplicate {request : PushRequest} {now : Nat} {health : Health} {view : PolicyView}
    (h : s.push tenant request now health = (t, .ok (.duplicate view))) :
    t = s ∧ ∃ entry, s.policies[tenant]? = some entry ∧ entry.view = view := by
  rw [TenantPolicy.push] at h
  split at h
  next => cases h
  next entry _ =>
    split at h
    next answer hanswer =>
      cases h
      obtain ⟨current, hcurrent, hsettled⟩ := Option.bind_eq_some_iff.mp hanswer
      refine ⟨rfl, current, hcurrent, ?_⟩
      rw [TenantPolicy.settled] at hsettled
      repeat' split at hsettled
      all_goals cases hsettled
      rfl
    next => split at h <;> cases h

theorem restart_synced (hs : ∀ tenant, Backed (s.standing tenant)) (hstep : step s .restart = some t) (tenant : τ) :
    Synced (t.standing tenant) := by
  obtain ⟨policies, hload, hall⟩ := TenantPolicy.loadAll_ok hs
  rw [step, hload] at hstep
  cases hstep
  rcases hall tenant with ⟨hstored, hpolicy⟩ | ⟨document, entry, hstored, hentry, hpolicy⟩
  · exact .inl (Prod.ext hpolicy hstored)
  · obtain ⟨entry', hsound, rfl, -⟩ := (hs tenant).stored document hstored
    cases hsound.load_document hentry
    exact .inr ⟨entry, hsound, Prod.ext hpolicy hstored⟩

theorem step_synced (hs : ∀ tenant, Backed (s.standing tenant)) (hsynced : Synced (s.standing tenant))
    (hheard : ¬ action.Loses tenant) (hstep : step s action = some t) : Synced (t.standing tenant) := by
  by_cases hremove : ∃ health, action = .remove tenant health
  · obtain ⟨health, rfl⟩ := hremove
    cases hstep
    rcases s.remove_cases tenant health with ⟨hq, -⟩ | ⟨-, ⟨hq, -⟩ | ⟨⟨hlost, -⟩, -⟩⟩
    · rwa [hq]
    · exact .inl hq
    · exact absurd ⟨rfl, hlost⟩ hheard
  · exact (step_moves hs hstep fun health h => absurd ⟨health, h⟩ hremove).synced hheard (hs tenant) hsynced

/-- Since a restart the store has answered what it carried out for the tenant. -/
def Heard (tenant : τ) (s : TenantPolicy τ) : Prop :=
  ∃ u v, Runs {} u ∧ step u .restart = some v ∧ Steps.Reach step (fun _ action => ¬ action.Loses tenant) v s

theorem Heard.synced (h : Heard tenant s) : Synced (s.standing tenant) := by
  obtain ⟨u, v, hu, hv, hs⟩ := h
  have hbacked := hu.backed backed_start
  have hboth := hs.invariant (P := fun s => (∀ tenant, Backed (s.standing tenant)) ∧ Synced (s.standing tenant))
    ⟨step_backed hbacked hv, restart_synced hbacked hv tenant⟩ fun s _ _ hs hheard hstep =>
      ⟨step_backed hs.1 hstep, step_synced hs.1 hs.2 hheard hstep⟩
  exact hboth.2

/-- A restart finds what is in force for a tenant that is in step. -/
theorem restart_of_synced (hs : ∀ tenant, Backed (s.standing tenant)) (hsynced : Synced (s.standing tenant)) :
    ∃ t, step s .restart = some t ∧ t.policies[tenant]? = s.policies[tenant]? := by
  obtain ⟨t, ht, hloads⟩ := restart_loads hs
  refine ⟨t, ht, ?_⟩
  rcases hsynced with hnone | ⟨entry, hsound, hstanding⟩
  · obtain ⟨hpolicy, hstored⟩ := Prod.ext_iff.mp hnone
    exact ((hloads tenant).1 hstored).trans hpolicy.symm
  · obtain ⟨hpolicy, hstored⟩ := Prod.ext_iff.mp hstanding
    exact ((hloads tenant).2 entry hsound hstored).trans hpolicy.symm

/-! ## Retries -/

theorem putTenantPolicyRevision_healthy (stored : Option PolicyDocument) (document : PolicyDocument) (revision : Nat) :
    (putTenantPolicyRevision healthy stored document revision).2 = .ok () ↔
      (stored.map (·.revision)).getD 0 ≤ revision := by
  cases stored with
  | none => exact ⟨fun _ => Nat.zero_le _, fun _ => rfl⟩
  | some current =>
    rw [putTenantPolicyRevision, if_neg (by decide), Option.map_some, Option.getD_some]
    split
    next hsame =>
      rw [Bool.and_eq_true, decide_eq_true_iff] at hsame
      exact ⟨fun _ => hsame.1.le, fun _ => rfl⟩
    next =>
      split
      next hlt => exact ⟨fun h => (by cases h), fun h => absurd hlt (not_lt.mpr h)⟩
      next hle => exact ⟨fun _ => not_lt.mp hle, fun _ => rfl⟩

theorem persist_healthy {entry : PolicyEntry} : (s.persist tenant entry healthy).2 = .ok () ↔
    (s.store[tenant]?.map (·.revision)).getD 0 ≤ entry.revision := by
  rw [← putTenantPolicyRevision_healthy _ entry.document, TenantPolicy.persist]
  split
  next error heq =>
    rw [heq]
    exact ⟨fun h => (by cases h), fun h => (by cases h)⟩
  next heq =>
    rw [heq]
    exact ⟨fun _ => rfl, fun _ => rfl⟩

/-- When a revocation goes through on a healthy store. -/
theorem revoke_healthy {fence now : Nat} (hs : Backed (s.standing tenant))
    (hfence : ∀ document fence', s.store[tenant]? = some document → document.revokedFence = some fence' →
      fence' ≤ fence) :
    (s.revokeProjectAccess tenant fence now healthy).2 = .ok () ↔
      0 < fence ∧ (s.policies[tenant]?.bind (·.revokedFence) = some fence ∨
        (s.store[tenant]?.map (·.revision)).getD 0 ≤ (s.policies[tenant]?.map (·.revision)).getD 0) := by
  have hpersist : (s.persist tenant (revokedEntry s.policies[tenant]? fence now) healthy).2 = .ok () ↔
      (s.store[tenant]?.map (·.revision)).getD 0 ≤ (s.policies[tenant]?.map (·.revision)).getD 0 := by
    rw [persist_healthy, (TenantPolicy.revokedEntry_follows s.policies[tenant]? fence now).2.2]
  rw [TenantPolicy.revokeProjectAccess]
  split
  next hzero => exact ⟨fun h => (by cases h), fun h => absurd hzero h.1.ne'⟩
  next hpos =>
    have hpos' : 0 < fence := Nat.pos_of_ne_zero hpos
    dsimp only
    split
    next currentFence hcurrent =>
      obtain ⟨current, hentry, hfenced⟩ := Option.bind_eq_some_iff.mp hcurrent
      obtain ⟨-, document, fence', hstored, hfence', hle⟩ := hs.fence current currentFence hentry hfenced
      have hbelow := hle.trans (hfence document fence' hstored hfence')
      rw [if_neg (not_lt.mpr hbelow), hcurrent]
      split
      next heq => exact ⟨fun _ => ⟨hpos', .inl (by rw [heq])⟩, fun _ => rfl⟩
      next hne =>
        rw [hpersist]
        refine ⟨fun h => ⟨hpos', .inr h⟩, fun h => h.2.resolve_left fun heq => hne ?_⟩
        exact (Option.some.inj heq).symm
    next hnone =>
      rw [hpersist, hnone]
      exact ⟨fun h => ⟨hpos', .inr h⟩, fun h => h.2.resolve_left fun heq => by cases heq⟩

/-! ## What is promised -/

/-- What changes to a tenant come to from a state on. -/
structure Promises (s : TenantPolicy τ) : Prop where
  /-- a tenant whose access was revoked is refused from then on -/
  refused : ∀ tenant fence now health t, s.revokeProjectAccess tenant fence now health = (t, .ok ()) →
    ∀ u, Runs t u → u.isTenantAllowed tenant = false
  /-- a policy that was applied is what a restart finds -/
  applied : ∀ tenant request now health view t, s.push tenant request now health = (t, .ok (.applied view)) →
    ∃ u entry, step t .restart = some u ∧ u.policies[tenant]? = some entry ∧ t.policies[tenant]? = some entry ∧
      entry.view = view
  /-- so is a revocation, unless it was there already: then its fence or a later one is -/
  revoked : ∀ tenant fence now health t, s.revokeProjectAccess tenant fence now health = (t, .ok ()) →
    ∃ u entry, step t .restart = some u ∧ u.policies[tenant]? = some entry ∧
      (t.policies[tenant]? = some entry ∧ entry.revokedFence = some fence ∨
        t = s ∧ ∃ fence', entry.revokedFence = some fence' ∧ fence ≤ fence')
  /-- a policy that was removed is not found again -/
  removed : ∀ tenant health t, s.remove tenant health = (t, .ok ()) →
    t.policies[tenant]? = none ∧ ∃ u, step t .restart = some u ∧ u.policies[tenant]? = none
  /-- a revocation with a fence that is not below the stored one goes through, unless the stored revision is ahead -/
  retried : ∀ tenant fence now,
    (∀ document fence', s.store[tenant]? = some document → document.revokedFence = some fence' → fence' ≤ fence) →
      ((s.revokeProjectAccess tenant fence now healthy).2 = .ok () ↔
        0 < fence ∧ (s.policies[tenant]?.bind (·.revokedFence) = some fence ∨
          (s.store[tenant]?.map (·.revision)).getD 0 ≤ (s.policies[tenant]?.map (·.revision)).getD 0))

theorem promises_of_backed (hs : ∀ tenant, Backed (s.standing tenant)) : Promises s := by
  have hstep {action : Action τ} {t : TenantPolicy τ} (h : step s action = some t) (tenant : τ) :
    Backed (t.standing tenant) :=
    step_backed hs h tenant
  have hrevoke {tenant : τ} {fence now : Nat} {health : Health} {t : TenantPolicy τ}
      (h : s.revokeProjectAccess tenant fence now health = (t, .ok ())) : ∀ tenant, Backed (t.standing tenant) :=
    hstep (show step s (.revoke tenant fence now health) = some t by rw [step, h])
  refine ⟨fun tenant fence now health t h u hu => ?_, fun tenant request now health view t h => ?_,
    fun tenant fence now health t h => ?_, fun tenant health t h => ?_, fun tenant fence now =>
      revoke_healthy (hs tenant)⟩
  · exact not_allowed_of_revoked (hu.revoked (hrevoke h) (revoke_ok_revoked h))
  · have ht := hstep (show step s (.push tenant request now health) = some t by rw [step, h])
    obtain ⟨entry, hstanding, hview⟩ := push_applied h
    obtain ⟨hpolicy, hstored⟩ := Prod.ext_iff.mp hstanding
    obtain ⟨u, hu, hloads⟩ := restart_loads ht
    exact ⟨u, entry, hu, (hloads tenant).2 entry ((ht tenant).sound entry hpolicy) hstored, hpolicy, hview⟩
  · have ht := hrevoke h
    obtain ⟨u, hu, hloads⟩ := restart_loads ht
    rcases revoke_ok h with ⟨rfl, entry, hentry, hfence⟩ | ⟨entry, hstanding, hfence⟩
    · obtain ⟨-, document, fence', hstored, hfence', hle⟩ := (ht tenant).fence entry fence hentry hfence
      obtain ⟨entry', hsound, rfl, -⟩ := (ht tenant).stored document hstored
      exact ⟨u, entry', hu, (hloads tenant).2 entry' hsound hstored, .inr ⟨rfl, fence', hfence', hle⟩⟩
    · obtain ⟨hpolicy, hstored⟩ := Prod.ext_iff.mp hstanding
      exact ⟨u, entry, hu, (hloads tenant).2 entry ((ht tenant).sound entry hpolicy) hstored, .inl ⟨hpolicy, hfence⟩⟩
  · have ht := hstep (show step s (.remove tenant health) = some t by rw [step, h])
    obtain ⟨u, hu, hloads⟩ := restart_loads ht
    have hcases := s.remove_cases tenant health
    rw [h] at hcases
    rcases hcases with ⟨-, error, herror⟩ | ⟨-, ⟨hstanding, -⟩ | ⟨⟨-, error, herror⟩, -⟩⟩
    · cases herror
    · obtain ⟨hpolicy, hstored⟩ := Prod.ext_iff.mp hstanding
      exact ⟨hpolicy, u, hu, (hloads tenant).1 hstored⟩
    · cases herror

/-- What holds of changes that were made before, of a tenant whose store was heard. -/
structure Repeats (tenant : τ) (s : TenantPolicy τ) : Prop where
  /-- a policy that was there already is what a restart finds -/
  duplicate : ∀ request now health view t, s.push tenant request now health = (t, .ok (.duplicate view)) →
    ∃ u entry, step t .restart = some u ∧ u.policies[tenant]? = some entry ∧ t.policies[tenant]? = some entry ∧
      entry.view = view
  /-- and so is a revocation -/
  revoked : ∀ fence now health t, s.revokeProjectAccess tenant fence now health = (t, .ok ()) →
    ∃ u entry, step t .restart = some u ∧ u.policies[tenant]? = some entry ∧ t.policies[tenant]? = some entry ∧
      entry.revokedFence = some fence

theorem repeats_of_heard (hs : ∀ tenant, Backed (s.standing tenant)) (hheard : Heard tenant s) : Repeats tenant s := by
  obtain ⟨u, hu, hpolicy⟩ := restart_of_synced hs hheard.synced
  refine ⟨fun request now health view t h => ?_, fun fence now health t h => ?_⟩
  · obtain ⟨rfl, entry, hentry, hview⟩ := push_duplicate h
    exact ⟨u, entry, hu, hpolicy.trans hentry, hentry, hview⟩
  · obtain ⟨w, entry, hw, hloaded, ⟨hentry, hfence⟩ | ⟨rfl, -⟩⟩ :=
      (promises_of_backed hs).revoked tenant fence now health t h
    · exact ⟨w, entry, hw, hloaded, hentry, hfence⟩
    · rcases revoke_ok h with ⟨-, current, hcurrent, hfence⟩ | ⟨current, hstanding, hfence⟩
      · exact ⟨u, current, hu, hpolicy.trans hcurrent, hcurrent, hfence⟩
      · exact ⟨u, current, hu, hpolicy.trans (Prod.ext_iff.mp hstanding).1, (Prod.ext_iff.mp hstanding).1, hfence⟩

/-- Removals are not carried out with an error as their answer. -/
def Answered (_ : TenantPolicy τ) : Action τ → Prop
  | .remove _ health => health.write ≠ .unanswered
  | _ => True

/-- No policy of a tenant is removed. -/
def Keeps (tenant : τ) (s : TenantPolicy τ) : Action τ → Prop
  | .remove other health => other = tenant → (s.remove other health).2 ≠ .ok ()
  | _ => True

theorem step_ahead (hs : ∀ tenant, Backed (s.standing tenant)) (hahead : ∀ tenant, Ahead (s.standing tenant))
    (hanswered : Answered s action) (hstep : step s action = some t) (tenant : τ) : Ahead (t.standing tenant) := by
  by_cases hremove : ∃ health, action = .remove tenant health
  · obtain ⟨health, rfl⟩ := hremove
    cases hstep
    rcases s.remove_cases tenant health with ⟨hq, -⟩ | ⟨-, ⟨hq, -⟩ | ⟨⟨hunanswered, -⟩, -⟩⟩
    · rw [hq]
      exact hahead tenant
    · rw [hq]
      rintro entry ⟨⟩
    · exact absurd hunanswered hanswered
  · exact (step_moves hs hstep fun health h => absurd ⟨health, h⟩ hremove).ahead (hs tenant) (hahead tenant)

theorem step_revision_le (hs : ∀ tenant, Backed (s.standing tenant)) (hahead : Ahead (s.standing tenant))
    (hanswered : Answered s action) (hkeeps : Keeps tenant s action) (hstep : step s action = some t)
    {old : PolicyEntry}
    (hold : s.policies[tenant]? = some old) : ∃ entry, t.policies[tenant]? = some entry ∧
      old.revision ≤ entry.revision := by
  refine (step_moves hs hstep ?_).revision_le (hs tenant) hahead hold
  rintro health rfl
  cases hstep
  rcases s.remove_cases tenant health with ⟨hq, -⟩ | ⟨-, ⟨-, hok⟩ | ⟨⟨hunanswered, -⟩, -⟩⟩
  · exact hq
  · exact absurd hok (hkeeps rfl)
  · exact absurd hunanswered hanswered

/-- The revision in force of a tenant does not go back while its policy is not removed. -/
theorem revision_le_of_reach (hs : ∀ tenant, Backed (s.standing tenant)) (hahead : ∀ tenant, Ahead (s.standing tenant))
    (h : Steps.Reach step (fun s action => Answered s action ∧ Keeps tenant s action) s t) {old : PolicyEntry}
    (hold : s.policies[tenant]? = some old) : ∃ entry, t.policies[tenant]? = some entry ∧
      old.revision ≤ entry.revision := by
  have hall : ((∀ tenant, Backed (t.standing tenant)) ∧ ∀ tenant, Ahead (t.standing tenant)) ∧
      ∃ entry, t.policies[tenant]? = some entry ∧ old.revision ≤ entry.revision := by
    refine h.invariant (P := fun t => ((∀ tenant, Backed (t.standing tenant)) ∧ ∀ tenant, Ahead (t.standing tenant)) ∧
      ∃ entry, t.policies[tenant]? = some entry ∧ old.revision ≤ entry.revision) ⟨⟨hs, hahead⟩, old, hold, le_rfl⟩ ?_
    rintro s action t ⟨⟨hs, hahead⟩, entry, hentry, hle⟩ ⟨hanswered, hkeeps⟩ hstep
    refine ⟨⟨step_backed hs hstep, step_ahead hs hahead hanswered hstep⟩, ?_⟩
    obtain ⟨entry', hentry', hle'⟩ := step_revision_le hs (hahead tenant) hanswered hkeeps hstep hentry
    exact ⟨entry', hentry', hle.trans hle'⟩
  exact hall.2

/-- **Policy changes are durable and ordered.** Whatever was pushed, revoked, removed and restarted, and whatever the
store answered: a revoked tenant stays refused, a policy that was applied and one that was removed are what a restart
finds, and a revocation that is retried on a healthy store goes through just if its fence is in force or no later
revision is stored than the one in force. A push or a revocation that was answered Ok because it was there already is
what a restart finds if since the last one no change of the tenant was carried out with an error as its answer. And
where that is so of removals, the revision in force does not go back between them. -/
theorem policies_durable (h : Runs {} s) : Promises s ∧ (∀ tenant, Heard tenant s → Repeats tenant s) ∧
    (Steps.Reach step Answered {} s → ∀ tenant t,
      Steps.Reach step (fun s action => Answered s action ∧ Keeps tenant s action) s t →
        ∀ old, s.policies[tenant]? = some old → ∃ entry, t.policies[tenant]? = some entry ∧
          old.revision ≤ entry.revision) := by
  have hs := h.backed backed_start
  refine ⟨promises_of_backed hs, fun tenant hheard => repeats_of_heard hs hheard,
    fun hanswered tenant t ht old hold => ?_⟩
  have hahead : (∀ tenant, Backed (s.standing tenant)) ∧ ∀ tenant, Ahead (s.standing tenant) := by
    refine hanswered.invariant (P := fun s => (∀ tenant, Backed (s.standing tenant)) ∧ ∀ tenant,
      Ahead (s.standing tenant))
      ⟨backed_start, fun tenant entry hentry => (by cases hentry)⟩ ?_
    rintro s action t ⟨hs, hahead⟩ hanswered hstep
    exact ⟨step_backed hs hstep, step_ahead hs hahead hanswered hstep⟩
  exact revision_le_of_reach hs hahead.2 ht hold

end Steps

/-! ## A revision that was stored and not applied -/

section Runs

def thirtyDays (revision : Nat) (projectManaged : Bool) : PushRequest :=
    ⟨revision, "30d".toList, none, {}, projectManaged⟩

theorem policies_durable_pushed : ∃ s : TenantPolicy Nat, Runs {} s ∧ s.policies[0]?.any (·.revision = 5) = true ∧
    (s.revokeProjectAccess 0 1 9 healthy).2 = .ok () := by
  have hrun : ∃ s : TenantPolicy Nat, Runs {} s ∧ (s.policies[0]?.any (·.revision = 5) &&
      decide ((s.store[0]?.map (·.revision)).getD 0 ≤ (s.policies[0]?.map (·.revision)).getD 0) &&
      s.store[0]?.all (·.revokedFence.isNone)) = true :=
    Steps.exists_reach [.push 0 (thirtyDays 5 true) 7 healthy] (by decide +kernel)
  obtain ⟨s, hs, hp⟩ := hrun
  rw [Bool.and_eq_true, Bool.and_eq_true, decide_eq_true_iff] at hp
  refine ⟨s, hs, hp.1.1, ((policies_durable hs).1.retried 0 1 9 fun document fence' hstored hfence => ?_).mpr
    ⟨by decide, .inr hp.1.2⟩⟩
  have hnone := hp.2
  rw [hstored, Option.all_some, hfence] at hnone
  cases hnone

/-- **A duplicate that is forgotten.** The policy is stored and in force, then its removal is carried out and answered
with an error. The same push is answered Ok from memory, and a restart finds nothing. -/
theorem duplicate_forgotten : ∃ s : TenantPolicy Nat, Runs {} s ∧
    (s.push 0 (thirtyDays 5 false) 8 healthy).2 = .ok (.duplicate ⟨5, "30d".toList, none, none, none, none, 7⟩) ∧
      ∃ t, step (s.push 0 (thirtyDays 5 false) 8 healthy).1 .restart = some t ∧ t.policies[0]? = none := by
  have hrun : ∃ s : TenantPolicy Nat, Runs {} s ∧ (decide ((s.push 0 (thirtyDays 5 false) 8 healthy).2 =
      .ok (.duplicate ⟨5, "30d".toList, none, none, none, none, 7⟩)) &&
      (step (s.push 0 (thirtyDays 5 false) 8 healthy).1 .restart).any fun t => t.policies[0]?.isNone) = true :=
    Steps.exists_reach [.push 0 (thirtyDays 5 false) 7 healthy, .remove 0 ⟨true, .unanswered⟩] (by decide +kernel)
  obtain ⟨s, hs, hp⟩ := hrun
  obtain ⟨hduplicate, hrestart⟩ := Bool.and_eq_true_iff.mp hp
  obtain ⟨t, ht, hnone⟩ := Steps.exists_of_any hrestart
  exact ⟨s, hs, of_decide_eq_true hduplicate, t, ht, Option.isNone_iff_eq_none.mp hnone⟩

/-- **A revocation that never goes through.** Revision 5 of a tenant's policy is stored, but the store answers with an
error. The tenant is not known, and to revoke its access the code writes revision 0, which the store does not take over
revision 5: every retry finds the same. -/
theorem revoke_refused_forever : ∃ s : TenantPolicy Nat, Runs {} s ∧ s.policies[0]? = none ∧
    s.store[0]?.bind (·.revokedFence) = none ∧
      (s.revokeProjectAccess 0 1 9 healthy).2 = .error (.persist (.revisionConflict 5 0)) ∧
      (s.revokeProjectAccess 0 1 9 healthy).1.standing 0 = s.standing 0 := by
  have hrun : ∃ s : TenantPolicy Nat, Runs {} s ∧
    (decide (s.policies[0]? = none ∧ s.store[0]?.bind (·.revokedFence) = none ∧
      (s.revokeProjectAccess 0 1 9 healthy).2 = .error (.persist (.revisionConflict 5 0)) ∧
      (s.revokeProjectAccess 0 1 9 healthy).1.standing 0 = s.standing 0)) = true :=
    Steps.exists_reach [.push 0 (thirtyDays 5 true) 7 ⟨true, .unanswered⟩] (by decide +kernel)
  obtain ⟨s, hs, hp⟩ := hrun
  exact ⟨s, hs, of_decide_eq_true hp⟩

end Runs

end Signy.Policy
