/-
The reference database (dodb-testkit/src/reference.rs): an ordered map from keys to revision states, against
which the engine is tested. Queries and scans are left out.
-/
import Mathlib
import Fn0.Lib.OrdMap
import Fn0.Dodb.Core

namespace Dodb

/-- The states of all keys that were ever written. Transaction ids, which nothing reads, are left out. -/
structure ReferenceDb where
  states : BTreeMap DocumentKey RevisionState
  nextLsn : Nat

namespace ReferenceDb

def new : ReferenceDb := { states := ∅, nextLsn := 1 }

def get (db : ReferenceDb) (key : DocumentKey) : RevisionState := db.states[key]?.getD (.missing 0)

def checkCondition (db : ReferenceDb) (condition : TransactionCondition) : Except Error Unit :=
  let actual := db.get condition.key
  if !condition.satisfied actual.observed then
    .error (.conflict { key := condition.key, expected := condition.expectation, actual := actual.observed })
  else .ok ()

def mutate (revision : Nat) (db : ReferenceDb) : TransactionMutation → ReferenceDb
  | .put key value => { db with states := db.states.insert key (.present value revision) }
  | .delete key => { db with states := db.states.insert key (.missing revision) }

/-- `transact_at`: the result, and the database after it. -/
def transactAt (db : ReferenceDb) (request : TransactionRequest) (commitLsn : Nat) :
    Except Error (Option Nat) × ReferenceDb :=
  match request.validate with
  | .error error => (.error error, db)
  | .ok () =>
    match request.conditions.forM db.checkCondition with
    | .error error => (.error error, db)
    | .ok () =>
      if request.mutations = [] then (.ok none, db)
      else if commitLsn = 0 then (.error (.invalidRequest "a committed transaction LSN must be non-zero"), db)
      else
        let db := request.mutations.foldl (mutate commitLsn) db
        (.ok (some commitLsn), { db with nextLsn := max db.nextLsn (commitLsn + 1) })

end ReferenceDb

end Dodb
