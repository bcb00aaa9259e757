/-
Delete requests and their registry: which rows a request covers, which parts can hold such rows, and when it is
processed.

The requests of all tenants are one list in the order in which they came.
-/
import Mathlib
import Fn0.Lib.Steps
import Fn0.Signy.LogQuery

namespace Signy

inductive DeleteStatus
  | received
  | processed
deriving DecidableEq

/-- The id is a fresh uuid. -/
structure DeleteRequest where
  requestId : Nat
  tenant : String
  query : String
  startNs : Int
  endNs : Int
  createdAtNs : Int
  status : DeleteStatus
deriving DecidableEq

/-- A request with its selector parsed. -/
structure CompiledRequest where
  request : DeleteRequest
  selector : LogQuery

def CompiledRequest.covers (compiled : CompiledRequest) (metadata : List (String × String)) (timestampNs : Int)
    (line : String) : Bool :=
  if timestampNs < compiled.request.startNs ∨ compiled.request.endNs ≤ timestampNs then false
  else
    let attributes : Labels := .ofList metadata compare
    compiled.selector.matchers.all (·.matches attributes) && compiled.selector.lineFilters.all (·.matches line)

/-- The rows of a tenant in a part lie between two times. -/
structure TenantSegment where
  tenant : String
  minTsNs : Int
  maxTsNs : Int
deriving DecidableEq

/-- What `meta.json` says of a part, as far as deletion reads it. -/
structure PartMeta where
  tenants : List TenantSegment
deriving DecidableEq

def CompiledRequest.mayBeHeldBy (compiled : CompiledRequest) (part : PartMeta) : Bool :=
  part.tenants.any fun segment =>
    segment.tenant = compiled.request.tenant ∧ segment.minTsNs < compiled.request.endNs ∧
      compiled.request.startNs ≤ segment.maxTsNs

/-- A request is processed once none of the parts can hold a row that it covers. -/
def CompiledRequest.mark (metas : List PartMeta) (compiled : CompiledRequest) : CompiledRequest :=
  if compiled.request.status = .processed then compiled
  else if metas.any compiled.mayBeHeldBy then compiled
  else { compiled with request.status := .processed }

/-- The registry that the scans read. -/
structure DeleteRequests where
  requests : List CompiledRequest
  outstanding : Nat

namespace DeleteRequests

def empty : DeleteRequests := ⟨[], 0⟩

def isEmpty (registry : DeleteRequests) : Bool := registry.outstanding = 0

/-- The requests that a rewrite applies. -/
def masks (registry : DeleteRequests) : List CompiledRequest := if registry.isEmpty then [] else registry.requests

def push (registry : DeleteRequests) (compiled : CompiledRequest) : DeleteRequests :=
  ⟨registry.requests ++ [compiled], registry.outstanding + 1⟩

/-- A request of the tenant with the id. -/
def named (tenant : String) (requestId : Nat) (compiled : CompiledRequest) : Bool :=
  compiled.request.tenant = tenant ∧ compiled.request.requestId = requestId

def retain (registry : DeleteRequests) (tenant : String) (requestId : Nat) : DeleteRequests :=
  let kept := registry.requests.filter fun compiled => !named tenant requestId compiled
  ⟨kept, registry.outstanding - (registry.requests.length - kept.length)⟩

def markProcessed (registry : DeleteRequests) (metas : List PartMeta) : DeleteRequests :=
  if registry.isEmpty then registry else { registry with requests := registry.requests.map (·.mark metas) }

end DeleteRequests

end Signy
