/-
Egress credit of one project: workers spend credit that control grants against a monthly quota.

A worker holds its credit under a lock for the whole of a charge, so it has at most one charge that waits for a grant.
Between its clock read and the answer anything may happen: the month may change, control may read its own clock and
commit the grant much later, the answer may be lost or come after the worker has given up. Months are numbers, and the
empty month of a fresh credit is zero. Operations on `u64` wrap, as they do in a release build, and it is recorded when
one did.
-/
import Mathlib
import Fn0.Lib.Steps

namespace Egress

/-! ## Machine arithmetic -/

/-- `a - b` and whether it stayed in range. -/
def subU64 (a b : Nat) : Nat × Bool := ((2 ^ 64 + a - b) % 2 ^ 64, decide (b ≤ a))

/-- `a + b` and whether it stayed in range. -/
def addU64 (a b : Nat) : Nat × Bool := ((a + b) % 2 ^ 64, decide (a + b < 2 ^ 64))

/-! ## The worker -/

def minimumGrantBytes : Nat := 256 * 1024

def maximumGrantBytes : Nat := 64 * 1024 * 1024

inductive Response
  | granted (month grantedBytes : Nat)
  | quotaExhausted (month : Nat)
  | quotaNotConfigured
  | unauthorized
  | error
deriving DecidableEq

inductive Denied
  | quotaExhausted
  | quotaNotConfigured
  | budgetUnavailable
deriving DecidableEq

structure ProjectCredit where
  month : Nat := 0
  availableBytes : Nat := 0
  nextGrantBytes : Nat := minimumGrantBytes
  hadGrant : Bool := false

/-- Credit of an earlier month is discarded. -/
def ProjectCredit.enter (credit : ProjectCredit) (month : Nat) : ProjectCredit :=
  if credit.month < month then { credit with month, availableBytes := 0 } else credit

/-- The size of the next request doubles while grants come in quick succession. -/
def ProjectCredit.grow (credit : ProjectCredit) (quick : Bool) : ProjectCredit :=
  { credit with
    nextGrantBytes :=
      if credit.hadGrant && quick then min (min (credit.nextGrantBytes * 2) (2 ^ 64 - 1)) maximumGrantBytes
      else minimumGrantBytes }

/-- A charge that waits for a grant. -/
structure Waiting where
  ticket : Nat
  byteCount : Nat
  minimumBytes : Nat
  readMonth : Nat

/-- The credit after a grant that covers what the charge lacked. -/
def ProjectCredit.receive (credit : ProjectCredit) (byteCount month grantedBytes : Nat) : ProjectCredit × Bool :=
  let credit := credit.enter month
  let extra := subU64 grantedBytes byteCount
  let availableBytes := addU64 credit.availableBytes extra.1
  ({ credit with availableBytes := availableBytes.1, hadGrant := true }, extra.2 && availableBytes.2)

/-- What a charge makes of the answer. -/
def settle (credit : ProjectCredit) (waiting : Waiting) : Response → Except Denied (ProjectCredit × Bool)
  | .granted month grantedBytes =>
    if waiting.minimumBytes ≤ grantedBytes then .ok (credit.receive waiting.byteCount month grantedBytes)
    else .error .budgetUnavailable
  | .quotaExhausted _ => .error .quotaExhausted
  | .quotaNotConfigured => .error .quotaNotConfigured
  | .unauthorized | .error => .error .budgetUnavailable

structure Worker where
  credit : ProjectCredit := {}
  waiting : Option Waiting := none

/-! ## Control -/

inductive MonthlyEgressLimit
  | bytes (limit : UInt64)
  | unlimited

/-- The transaction of a grant: the answer, what is then recorded for the month, and whether arithmetic stayed in
range. -/
def grantEgress (quota : Option MonthlyEgressLimit) (alreadyGranted month requestedBytes minimumBytes : Nat) :
    Response × Nat × Bool :=
  match quota with
  | none => (.quotaNotConfigured, alreadyGranted, true)
  | some limit =>
    let remainingBytes :=
      match limit with
      | .bytes limit => (limit.toNat - alreadyGranted, true)
      | .unlimited => subU64 (2 ^ 64 - 1) alreadyGranted
    if remainingBytes.1 = 0 ∨ remainingBytes.1 < minimumBytes then
      (.quotaExhausted month, alreadyGranted, remainingBytes.2)
    else
      let grantedBytes := min requestedBytes remainingBytes.1
      let total := addU64 alreadyGranted grantedBytes
      (.granted month grantedBytes, total.1, remainingBytes.2 && total.2)

/-! ## The system -/

structure Request where
  ticket : Nat
  requestedBytes : Nat
  minimumBytes : Nat
  /-- the month that control read when it began to handle the request -/
  month : Option Nat := none

/-- A charge that was accepted, with the month the worker read. -/
structure Charge where
  readMonth : Nat
  byteCount : Nat

structure System where
  quota : Option MonthlyEgressLimit
  clock : Nat := 1
  usage : Nat → Nat := fun _ => 0
  workers : List Worker := []
  requests : List Request := []
  responses : List (Nat × Response) := []
  tickets : Nat := 0
  accepted : List Charge := []
  denied : List Denied := []
  inRange : Bool := true

inductive Action
  | join
  | tick
  | charge (worker : Nat) (byteCount : UInt64) (quick : Bool)
  | stamp (request : Nat)
  | commit (request : Nat)
  | refuse (request : Nat) (response : Response)
  | loseRequest (request : Nat)
  | deliver (response worker : Nat)
  | loseResponse (response : Nat)
  | timeout (worker : Nat)
  | restart (worker : Nat)

namespace System

def charge (s : System) (w : Nat) (worker : Worker) (byteCount : Nat) (quick : Bool) : System :=
  if byteCount = 0 then { s with accepted := ⟨s.clock, 0⟩ :: s.accepted }
  else
    let credit := worker.credit.enter s.clock
    if byteCount ≤ credit.availableBytes then
      let availableBytes := subU64 credit.availableBytes byteCount
      { s with
        workers := s.workers.set w ⟨{ credit with availableBytes := availableBytes.1 }, none⟩
        accepted := ⟨s.clock, byteCount⟩ :: s.accepted
        inRange := s.inRange && availableBytes.2 }
    else
      let minimumBytes := subU64 byteCount credit.availableBytes
      let credit := credit.grow quick
      { s with
        workers := s.workers.set w ⟨credit, some ⟨s.tickets, byteCount, minimumBytes.1, s.clock⟩⟩
        requests := s.requests ++ [⟨s.tickets, max credit.nextGrantBytes minimumBytes.1, minimumBytes.1, none⟩]
        tickets := s.tickets + 1
        inRange := s.inRange && minimumBytes.2 }

/-- The handler of a request whose month was read. A request for less than its minimum is refused. -/
def commit (s : System) (i : Nat) (request : Request) (month : Nat) : System :=
  if request.minimumBytes > request.requestedBytes then
    { s with requests := s.requests.eraseIdx i, responses := (request.ticket, .error) :: s.responses }
  else
    let result := grantEgress s.quota (s.usage month) month request.requestedBytes request.minimumBytes
    { s with
      usage := Function.update s.usage month result.2.1
      requests := s.requests.eraseIdx i
      responses := (request.ticket, result.1) :: s.responses
      inRange := s.inRange && result.2.2 }

def deliver (s : System) (i w : Nat) (worker : Worker) (waiting : Waiting) (response : Response) : System :=
  match settle worker.credit waiting response with
  | .ok result =>
    { s with
      workers := s.workers.set w ⟨result.1, none⟩
      responses := s.responses.eraseIdx i
      accepted := ⟨waiting.readMonth, waiting.byteCount⟩ :: s.accepted
      inRange := s.inRange && result.2 }
  | .error denied =>
    { s with
      workers := s.workers.set w ⟨worker.credit, none⟩
      responses := s.responses.eraseIdx i
      denied := denied :: s.denied }

def step (s : System) : Action → Option System
  | .join => some { s with workers := s.workers ++ [{}] }
  | .tick => some { s with clock := s.clock + 1 }
  | .charge w byteCount quick =>
    match s.workers[w]? with
    | some ⟨credit, none⟩ => some (s.charge w ⟨credit, none⟩ byteCount.toNat quick)
    | _ => none
  | .stamp i =>
    match s.requests[i]? with
    | some ⟨ticket, requestedBytes, minimumBytes, none⟩ =>
      some { s with requests := s.requests.set i ⟨ticket, requestedBytes, minimumBytes, some s.clock⟩ }
    | _ => none
  | .commit i =>
    match s.requests[i]? with
    | some ⟨ticket, requestedBytes, minimumBytes, some month⟩ =>
      some (s.commit i ⟨ticket, requestedBytes, minimumBytes, some month⟩ month)
    | _ => none
  -- the request is answered without a grant
  | .refuse i response =>
    match s.requests[i]?, response with
    | some _, .granted .. => none
    | some request, response =>
      some { s with requests := s.requests.eraseIdx i, responses := (request.ticket, response) :: s.responses }
    | none, _ => none
  | .loseRequest i => some { s with requests := s.requests.eraseIdx i }
  | .deliver i w =>
    match s.responses[i]?, s.workers[w]? with
    | some (ticket, response), some ⟨credit, some waiting⟩ =>
      if waiting.ticket = ticket then some (s.deliver i w ⟨credit, some waiting⟩ waiting response) else none
    | _, _ => none
  | .loseResponse i => some { s with responses := s.responses.eraseIdx i }
  | .timeout w =>
    match s.workers[w]? with
    | some ⟨credit, some _⟩ =>
      some { s with workers := s.workers.set w ⟨credit, none⟩, denied := .budgetUnavailable :: s.denied }
    | _ => none
  | .restart w =>
    match s.workers[w]? with
    | some _ => some { s with workers := s.workers.set w {} }
    | none => none

/-- A charge gets no grant that covers what it lacked and is smaller than the charge. -/
def Calm (s : System) : Action → Prop
  | .deliver i w => ∀ answer ∈ s.responses[i]?, ∀ worker ∈ s.workers[w]?, ∀ waiting ∈ worker.waiting,
    match answer.2 with
    | .granted _ grantedBytes => waiting.minimumBytes ≤ grantedBytes → waiting.byteCount ≤ grantedBytes
    | _ => True
  | _ => True

instance (s : System) (action : Action) : Decidable (s.Calm action) := by
  unfold Calm
  split
  · have (answer : Nat × Response) (waiting : Waiting) : Decidable (match answer.2 with
        | .granted _ grantedBytes => waiting.minimumBytes ≤ grantedBytes → waiting.byteCount ≤ grantedBytes
        | _ => True) := by
      split <;> infer_instance
    infer_instance
  · infer_instance

/-! ## What is promised -/

/--
Each accepted charge takes its bytes from one month, not earlier than the one its worker read, and the charges of a
month take no more than what control recorded for it.
-/
def Matched (s : System) : Prop :=
  ∃ sources : List (Charge × Nat), sources.map Prod.fst = s.accepted ∧
    (∀ source ∈ sources, source.1.readMonth ≤ source.2) ∧
    ∀ month, (sources.map fun source => if source.2 = month then source.1.byteCount else 0).sum ≤ s.usage month

def Limited (s : System) : Prop := ∀ limit, s.quota = some (.bytes limit) → ∀ month, s.usage month ≤ limit.toNat

/-- No arithmetic left its range, and the quota is not overspent. -/
def Sound (s : System) : Prop := s.inRange = true ∧ s.Matched ∧ s.Limited

end System

end Egress
