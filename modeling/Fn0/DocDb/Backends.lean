/-
The backends of the document database: the store of the memory backend, the table of the Turso backend, and the dodb
client, whose server is the reference database.

Keys are pairs of byte strings: Rust orders strings by their bytes, and `document_key` passes the bytes on. A row of the
Turso table is a document with a version as it is in memory, and a transaction of the Turso backend is one function,
since `BEGIN IMMEDIATE` and `COMMIT` make it atomic. What a call returns is what the backend answers without transport
errors; the dodb client refuses a request that exceeds the limits of the protocol before it sends it. Queries and scans
are left out.
-/
import Mathlib
import Fn0.Dodb.Protocol
import Fn0.Dodb.Reference

namespace DocDb

open Dodb

inductive ObservedDocument
  | present (data : Bytes) (revision : Nat)
  | missing (revision : Option Nat)
deriving DecidableEq

inductive BackendError
  | negativeRevision (value : Int)
  | unrepresentableRevision (revision : Nat)
  | revisionOverflow
  | duplicateConditionKey (key : DocumentKey)
  | duplicateMutationKey (key : DocumentKey)
  | unmatchedConflict
  | client (error : Dodb.Error)
  | protocol (error : Protocol.ProtocolError)
deriving DecidableEq

/-- The index of the condition that failed, if one did. -/
abbrev TransactOutcome : Type := Option Nat

def firstRepeated (seen : List DocumentKey) : List DocumentKey → Option DocumentKey
  | [] => none
  | key :: keys => if key ∈ seen then some key else firstRepeated (key :: seen) keys

def validateTransactRequest (request : TransactionRequest) : Except BackendError Unit :=
  match firstRepeated [] (request.conditions.map TransactionCondition.key) with
  | some key => .error (.duplicateConditionKey key)
  | none =>
    match firstRepeated [] (request.mutations.map TransactionMutation.key) with
    | some key => .error (.duplicateMutationKey key)
    | none => .ok ()

def maxI64 : Int := 9223372036854775807

def revisionFromBackend (value : Int) : Except BackendError Nat :=
  if value < 0 then .error (.negativeRevision value) else .ok value.toNat

def revisionToBackend (revision : Nat) : Except BackendError Int :=
  if (revision : Int) ≤ maxI64 then .ok revision else .error (.unrepresentableRevision revision)

/-- The index of the first condition that does not hold. -/
def firstFailing (holds : TransactionCondition → Except BackendError Bool) :
    Nat → List TransactionCondition → Except BackendError TransactOutcome
  | _, [] => .ok none
  | i, condition :: conditions =>
    match holds condition with
    | .error error => .error error
    | .ok true => firstFailing holds (i + 1) conditions
    | .ok false => .ok (some i)

/-! ## Memory -/

structure MemDoc where
  data : Bytes
  version : Int
deriving DecidableEq

abbrev Store : Type := BTreeMap DocumentKey MemDoc

namespace Memory

def get (store : Store) (key : DocumentKey) : Option Bytes := store[key]?.map MemDoc.data

def getObserved (store : Store) (key : DocumentKey) : Except BackendError ObservedDocument :=
  match store[key]? with
  | some doc =>
    match revisionFromBackend doc.version with
    | .ok revision => .ok (.present doc.data revision)
    | .error error => .error error
  | none => .ok (.missing none)

/-- `version + 1` on `i64`, which wraps in a release build. -/
def nextVersion (version : Int) : Int := if version = maxI64 then -9223372036854775808 else version + 1

def upsert (store : Store) (key : DocumentKey) (data : Bytes) : Store :=
  store.insert key ⟨data, (store[key]?.map fun doc => nextVersion doc.version).getD 0⟩

def put (store : Store) (key : DocumentKey) (data : Bytes) : Except BackendError Unit × Store :=
  (.ok (), upsert store key data)

def delete (store : Store) (key : DocumentKey) : Except BackendError Unit × Store := (.ok (), store.erase key)

def conditionHolds (store : Store) : TransactionCondition → Except BackendError Bool
  | .revisionEquals key expectedRevision =>
    match store[key]? with
    | none => .ok false
    | some doc =>
      match revisionFromBackend doc.version with
      | .ok revision => .ok (revision == expectedRevision)
      | .error error => .error error
  | .exists key => .ok store[key]?.isSome
  | .notExists key => .ok store[key]?.isNone

/-- Mutations are staged, and one that would exceed `i64` refuses them all. -/
def stage (store : Store) : List TransactionMutation → Except BackendError Store
  | [] => .ok store
  | .put key data :: rest =>
    match store[key]? with
    | none => stage (store.insert key ⟨data, 0⟩) rest
    | some doc =>
      if doc.version = maxI64 then .error .revisionOverflow else stage (store.insert key ⟨data, doc.version + 1⟩) rest
  | .delete key :: rest => stage (store.erase key) rest

def transact (store : Store) (request : TransactionRequest) : Except BackendError TransactOutcome × Store :=
  match firstFailing (conditionHolds store) 0 request.conditions with
  | .error error => (.error error, store)
  | .ok (some index) => (.ok (some index), store)
  | .ok none =>
    if request.mutations = [] then (.ok none, store)
    else
      match stage store request.mutations with
      | .error error => (.error error, store)
      | .ok staged => (.ok none, staged)

/-- `MemoryTransaction::put` and `delete`, on the copy of the store that an explicit transaction works on. -/
def writeWorking (working : Store) : TransactionMutation → Store
  | .put key data => upsert working key data
  | .delete key => working.erase key

end Memory

/-! ## Turso -/

namespace Turso

/-- `INSERT INTO docs … VALUES (…, 0) ON CONFLICT(pk, sk) DO UPDATE SET … version = docs.version + 1` -/
def upsertDoc (table : Store) (key : DocumentKey) (data : Bytes) : Store :=
  table.insert key ⟨data, (table[key]?.map (·.version + 1)).getD 0⟩

def put (table : Store) (key : DocumentKey) (data : Bytes) : Except BackendError Unit × Store :=
  (.ok (), upsertDoc table key data)

def delete (table : Store) (key : DocumentKey) : Except BackendError Unit × Store := (.ok (), table.erase key)

/-- The version column of the rows that the validation statement selects: none or one. -/
def selectVersion (table : Store) (key : DocumentKey) : List Int := (table[key]?.map MemDoc.version).toList

def conditionHolds (table : Store) : TransactionCondition → Except BackendError Bool
  | .notExists key => .ok (selectVersion table key).isEmpty
  | .exists key => .ok !(selectVersion table key).isEmpty
  | .revisionEquals key expectedRevision =>
    match revisionToBackend expectedRevision with
    | .error error => .error error
    | .ok expectedRevision => .ok ((selectVersion table key).head? == some expectedRevision)

def writeStmt (table : Store) : TransactionMutation → Store
  | .put key data => upsertDoc table key data
  | .delete key => table.erase key

def transact (table : Store) (request : TransactionRequest) : Except BackendError TransactOutcome × Store :=
  if request.conditions = [] ∧ request.mutations = [] then (.ok none, table)
  else
    match firstFailing (conditionHolds table) 0 request.conditions with
    | .error error => (.error error, table)
    | .ok (some index) => (.ok (some index), table)
    | .ok none => (.ok none, request.mutations.foldl writeStmt table)

end Turso

/-! ## Dodb -/

namespace DodbDatabase

open Dodb.Protocol (ProtocolLimits encodeRequest)

/-- The document that the server has under a key. -/
def content (db : ReferenceDb) (key : DocumentKey) : Option Bytes :=
  match db.get key with
  | .present value _ => some value
  | .missing _ => none

section Client

variable (limits : ProtocolLimits) (tenant : Nat)

/-- The client encodes a request before it sends it. -/
def send (request : Request) : Except BackendError Unit :=
  match encodeRequest tenant request limits with
  | .error error => .error (.protocol error)
  | .ok _ => .ok ()

def getObserved (db : ReferenceDb) (key : DocumentKey) : Except BackendError ObservedDocument :=
  match send limits tenant (.get key) with
  | .error error => .error error
  | .ok () =>
    match db.get key with
    | .present value revision => .ok (.present value revision)
    | .missing revision => .ok (.missing (some revision))

/-- A put or a delete is a transaction of one mutation on the server. -/
def write (db : ReferenceDb) (request : Request) (mutation : TransactionMutation) :
    Except BackendError Unit × ReferenceDb :=
  match send limits tenant request with
  | .error error => (.error error, db)
  | .ok () =>
    match db.transactAt { conditions := [], mutations := [mutation] } db.nextLsn with
    | (.ok _, db) => (.ok (), db)
    | (.error error, db) => (.error (.client error), db)

def put (db : ReferenceDb) (key : DocumentKey) (data : Bytes) : Except BackendError Unit × ReferenceDb :=
  write limits tenant db (.put key data) (.put key data)

def delete (db : ReferenceDb) (key : DocumentKey) : Except BackendError Unit × ReferenceDb :=
  write limits tenant db (.delete key) (.delete key)

def conditionMatches (conflict : TransactionConflict) (condition : TransactionCondition) : Bool :=
  condition.key == conflict.key && condition.expectation == conflict.expected

/-- The index of a conflict is found by its details among the conditions that were sent. -/
def transact (db : ReferenceDb) (request : TransactionRequest) : Except BackendError TransactOutcome × ReferenceDb :=
  if request.conditions = [] ∧ request.mutations = [] then (.ok none, db)
  else
    match send limits tenant (.transact request) with
    | .error error => (.error error, db)
    | .ok () =>
      match db.transactAt request db.nextLsn with
      | (.ok _, db) => (.ok none, db)
      | (.error (.conflict conflict), db) =>
        match request.conditions.findIdx? (conditionMatches conflict) with
        | some index => (.ok (some index), db)
        | none => (.error .unmatchedConflict, db)
      | (.error error, db) => (.error (.client error), db)

end Client

end DodbDatabase

/-! ## Backends as one -/

structure Backend (σ : Type) where
  content : σ → DocumentKey → Option Bytes
  getObserved : σ → DocumentKey → Except BackendError ObservedDocument
  put : σ → DocumentKey → Bytes → Except BackendError Unit × σ
  delete : σ → DocumentKey → Except BackendError Unit × σ
  transact : σ → TransactionRequest → Except BackendError TransactOutcome × σ
  /-- the writes of an explicit transaction on its copy of the store, where the backend works on a copy -/
  working : Option (σ → TransactionMutation → σ)

def memoryDatabase : Backend Store :=
  ⟨Memory.get, Memory.getObserved, Memory.put, Memory.delete, Memory.transact, some Memory.writeWorking⟩

/--
A document of the table is read as in memory, by one `SELECT data, version`. Explicit transactions are serial, so one of
them is its puts and deletes in succession.
-/
def tursoDatabase : Backend Store := ⟨Memory.get, Memory.getObserved, Turso.put, Turso.delete, Turso.transact, none⟩

/-- Explicit transactions are not supported. -/
def dodbDatabase (limits : Protocol.ProtocolLimits) (tenant : Nat) : Backend ReferenceDb :=
  ⟨DodbDatabase.content, DodbDatabase.getObserved limits tenant, DodbDatabase.put limits tenant,
    DodbDatabase.delete limits tenant, DodbDatabase.transact limits tenant, none⟩

/-- `Database::transact` validates the request before the backend sees it. -/
def Backend.checkedTransact {σ : Type} (backend : Backend σ) (s : σ) (request : TransactionRequest) :
    Except BackendError TransactOutcome × σ :=
  match validateTransactRequest request with
  | .error error => (.error error, s)
  | .ok () => backend.transact s request

end DocDb
