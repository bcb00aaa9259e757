/-
The values the database layers agree on (crates/dodb-core): identifiers, errors, revision states and
point-key transactions.

Page ids, LSNs, revisions, generations and batch ids are 64-bit counters in the source. Here they are
natural numbers: the exhaustion of a counter is not modelled.
-/
import Mathlib
import Fn0.Dodb.Key

namespace Dodb

def usizeMax : Nat := 2 ^ 64 - 1

/-- `std::collections::BTreeMap`. -/
abbrev BTreeMap (κ α : Type) [Ord κ] : Type := Std.ExtTreeMap κ α compare

/-! ## Revision states -/

inductive RevisionState where
  | present (value : Bytes) (revision : Nat)
  | missing (revision : Nat)
deriving DecidableEq, Repr

inductive ObservedState where
  | present (revision : Nat)
  | missing (revision : Nat)
deriving DecidableEq, Repr

def RevisionState.revision : RevisionState → Nat
  | .present _ revision => revision
  | .missing revision => revision

def RevisionState.observed : RevisionState → ObservedState
  | .present _ revision => .present revision
  | .missing revision => .missing revision

def ObservedState.revision : ObservedState → Nat
  | .present revision => revision
  | .missing revision => revision

def ObservedState.isMissing : ObservedState → Bool
  | .present _ => false
  | .missing _ => true

structure Document where
  key : DocumentKey
  value : Bytes
  revision : Nat
deriving DecidableEq, Repr

/-! ## Transactions -/

inductive ConditionExpectation where
  | revisionEquals (revision : Nat)
  | exists
  | notExists
deriving DecidableEq, Repr

inductive TransactionCondition where
  | revisionEquals (key : DocumentKey) (expectedRevision : Nat)
  | exists (key : DocumentKey)
  | notExists (key : DocumentKey)
deriving DecidableEq, Repr

def TransactionCondition.key : TransactionCondition → DocumentKey
  | .revisionEquals key _ => key
  | .exists key => key
  | .notExists key => key

def TransactionCondition.expectation : TransactionCondition → ConditionExpectation
  | .revisionEquals _ expectedRevision => .revisionEquals expectedRevision
  | .exists _ => .exists
  | .notExists _ => .notExists

/-- Whether an observed state meets the condition; the `match` that both the store and its reference run
for every condition. -/
def TransactionCondition.satisfied (actual : ObservedState) : TransactionCondition → Bool
  | .revisionEquals _ expectedRevision => actual.revision = expectedRevision
  | .exists _ => !actual.isMissing
  | .notExists _ => actual.isMissing

inductive TransactionMutation where
  | put (key : DocumentKey) (value : Bytes)
  | delete (key : DocumentKey)
deriving DecidableEq, Repr

def TransactionMutation.key : TransactionMutation → DocumentKey
  | .put key _ => key
  | .delete key => key

structure TransactionRequest where
  conditions : List TransactionCondition
  mutations : List TransactionMutation
deriving DecidableEq, Repr

structure TransactionConflict where
  key : DocumentKey
  expected : ConditionExpectation
  actual : ObservedState
deriving DecidableEq, Repr

/-! ## Errors -/

inductive Error where
  | invalidInput (message : String)
  | invalidRequest (message : String)
  | overloaded (message : String)
  | responseTooLarge (message : String)
  | conflict (conflict : TransactionConflict)
  | corruption (message : String)
  | io (message : String)
  | unsupportedFormat (message : String)
  | durabilityFailure (message : String)
  | recoveryFailure (message : String)
  | checkpointFailure (message : String)
  | internalInvariantViolation (message : String)
deriving DecidableEq, Repr

/-- The fields of a request are checked before anything is staged: it asks for something, and names no key
twice among its mutations nor twice among its conditions. -/
def TransactionRequest.validate (request : TransactionRequest) : Except Error Unit :=
  if request.conditions = [] ∧ request.mutations = [] then
    .error (.invalidRequest "a transaction must contain at least one condition or mutation")
  else if ¬ (request.mutations.map TransactionMutation.key).Nodup then
    .error (.invalidRequest "a transaction contains multiple mutations for one key")
  else if ¬ (request.conditions.map TransactionCondition.key).Nodup then
    .error (.invalidRequest "a transaction contains multiple conditions for one key")
  else .ok ()

end Dodb
