/-
The wire protocol (crates/dodb-protocol): requests and responses as length-delimited frames.

The source writes every message by hand twice, once into a `Writer` that appends to a vector and once from
a `Reader` that walks an input by an offset. The model keeps the two halves apart in the same way, as the
writers and readers of `Fn0.Lib.Codec`; the state of a reader is the input from its offset on. A `usize` is
64 bits wide: the sum of an offset and a length read from four bytes cannot overflow.
-/
import Mathlib
import Fn0.Lib.Codec
import Fn0.Dodb.Core

namespace Dodb

/-! ## The messages of the service (crates/dodb-service) -/

inductive Request where
  | get (key : DocumentKey)
  | put (key : DocumentKey) (value : Bytes)
  | delete (key : DocumentKey)
  | query (pk : PrimaryKey) (exclusiveAfterSk : Option SortKey) (limit : Nat)
  | scan (exclusiveAfterKey : Option DocumentKey) (limit : Nat)
  | transact (request : TransactionRequest)
deriving DecidableEq, Repr

structure TransactionOutcome where
  commitLsn : Option Nat
deriving DecidableEq, Repr

inductive Response where
  | get (state : RevisionState)
  | put (revision : Nat)
  | delete (revision : Nat)
  | query (documents : List Document)
  | scan (documents : List Document)
  | transact (outcome : TransactionOutcome)
deriving DecidableEq, Repr

namespace Protocol

open Codec

def magic : Bytes := [0x44, 0x4f, 0x44, 0x42]
def protocolVersion : Nat := 1
def headerSize : Nat := 11
def requestMessageType : UInt8 := 1
def responseMessageType : UInt8 := 2
def maxStorageValueSize : Nat := 64 * 1024 * 1024
def maxStorageKeyComponentSize : Nat := 3990
def maxStorageEncodedKeySize : Nat := 3992

inductive ProtocolError where
  | invalidLimits
  | truncatedHeader
  | invalidMagic
  | unsupportedVersion (version : Nat)
  | unknownMessageType (messageType : UInt8)
  | truncatedPayload
  | trailingBytes
  | payloadTooLarge (length maximum : Nat)
  | keyTooLarge (length maximum : Nat)
  | lengthOverflow
  | invalidOpcode (opcode : UInt8)
  | invalidStatus (status : UInt8)
  | invalidFlag (flag : UInt8)
  | invalidResponseType (expected actual : UInt8)
  | invalidErrorKind (kind : UInt8)
  | invalidExpectation (expectation : UInt8)
  | invalidRevisionState (state : UInt8)
  | invalidUtf8
deriving DecidableEq, Repr

structure ProtocolLimits where
  maxRequestFrameSize : Nat
  maxResponseFrameSize : Nat
  maxKeyComponentSize : Nat
  maxEncodedKeySize : Nat
  maxValueSize : Nat
  maxKeys : Nat
  maxConditions : Nat
  maxMutations : Nat
  maxQueryLimit : Nat
  maxScanLimit : Nat
  maxErrorDetailSize : Nat
deriving DecidableEq, Repr

/-- `ProtocolLimits::default`. -/
def ProtocolLimits.default : ProtocolLimits where
  maxRequestFrameSize := 68 * 1024 * 1024
  maxResponseFrameSize := 68 * 1024 * 1024
  maxKeyComponentSize := maxStorageKeyComponentSize
  maxEncodedKeySize := maxStorageEncodedKeySize
  maxValueSize := maxStorageValueSize
  maxKeys := 4096
  maxConditions := 256
  maxMutations := 256
  maxQueryLimit := 4096
  maxScanLimit := 4096
  maxErrorDetailSize := 4096

def ProtocolLimits.validate (limits : ProtocolLimits) : Except ProtocolError Unit :=
  if limits.maxRequestFrameSize < headerSize ∨ limits.maxResponseFrameSize < headerSize
      ∨ limits.maxKeyComponentSize = 0 ∨ limits.maxEncodedKeySize = 0 ∨ limits.maxValueSize = 0
      ∨ limits.maxKeys = 0 ∨ limits.maxConditions = 0 ∨ limits.maxMutations = 0
      ∨ limits.maxQueryLimit = 0 ∨ limits.maxScanLimit = 0 ∨ limits.maxErrorDetailSize = 0 then
    .error .invalidLimits
  else if limits.maxKeyComponentSize > maxStorageKeyComponentSize
      ∨ limits.maxEncodedKeySize > maxStorageEncodedKeySize
      ∨ limits.maxValueSize > maxStorageValueSize then
    .error .invalidLimits
  else .ok ()

structure FrameHeader where
  version : Nat
  messageType : UInt8
  payloadLength : Nat
deriving DecidableEq, Repr

/-! ## Application errors -/

inductive ApplicationErrorKind where
  | invalidRequest
  | overloaded
  | conflict
  | responseTooLarge
  | storageFailure
  | corruption
  | durabilityFailure
  | internal
  | unsupportedProtocol
deriving DecidableEq, Repr

inductive MutationOutcome where
  | notApplicable
  | notApplied
  | unknown
deriving DecidableEq, Repr

structure ConflictDetails where
  key : DocumentKey
  expected : ConditionExpectation
  actual : ObservedState
deriving DecidableEq, Repr

structure ApplicationError where
  kind : ApplicationErrorKind
  detail : String
  mutationOutcome : MutationOutcome
  conflict : Option ConflictDetails
deriving DecidableEq, Repr

inductive ResponseEnvelope where
  | success (response : Response)
  | error (error : ApplicationError)
deriving DecidableEq, Repr

/-! ## Writing -/

abbrev Writer (α : Type) : Type := Codec.Writer ProtocolError α

def u32TryFrom (n : Nat) : Except ProtocolError Nat :=
  if n < 2 ^ 32 then .ok n else .error .lengthOverflow

namespace Writer

def u8 (value : UInt8) : Writer Unit := modify (· ++ [value])

def u32 (value : Nat) : Writer Unit := modify (· ++ Bytes.ofNatBE 4 value)

def u64 (value : Nat) : Writer Unit := modify (· ++ Bytes.ofNatBE 8 value)

def raw (bytes : Bytes) : Writer Unit := modify (· ++ bytes)

def bytesRaw (value : Bytes) : Writer Unit := do
  let length ← Eff.ofExcept (u32TryFrom value.length)
  u32 length
  raw value

end Writer

/-- The maximum that `encode_bytes`, `encode_limit`, `encode_count` and `Reader::count` check. -/
def checkMaximum (length maximum : Nat) : Except ProtocolError Unit :=
  if length > maximum then .error (.payloadTooLarge length maximum) else .ok ()

def encodeBytes (bytes : Bytes) (maximum : Nat) : Writer Unit := do
  Eff.ofExcept (checkMaximum bytes.length maximum)
  Writer.bytesRaw bytes

def encodeCount (count maximum : Nat) : Writer Unit := do
  Eff.ofExcept (checkMaximum count maximum)
  let count ← Eff.ofExcept (u32TryFrom count)
  Writer.u32 count

def encodeLimit (limit maximum : Nat) : Writer Unit := encodeCount limit maximum

def validateKeyParts (pk sk : Bytes) (limits : ProtocolLimits) : Except ProtocolError Unit :=
  let key : DocumentKey := ⟨pk, sk⟩
  let encodedLength := key.encodedLen
  if encodedLength > limits.maxEncodedKeySize then
    .error (.keyTooLarge encodedLength limits.maxEncodedKeySize)
  else .ok ()

def validateKey (key : DocumentKey) (limits : ProtocolLimits) : Except ProtocolError Unit :=
  validateKeyParts key.pk key.sk limits

def encodeKey (key : DocumentKey) (limits : ProtocolLimits) : Writer Unit := do
  Eff.ofExcept (validateKey key limits)
  encodeBytes key.pk limits.maxKeyComponentSize
  encodeBytes key.sk limits.maxKeyComponentSize

def encodeOptionalKey (key : Option DocumentKey) (limits : ProtocolLimits) : Writer Unit :=
  match key with
  | some key => do
    Writer.u8 1
    encodeKey key limits
  | none => Writer.u8 0

def encodeOptionalBytes (bytes : Option Bytes) (maximum : Nat) : Writer Unit :=
  match bytes with
  | some bytes => do
    Writer.u8 1
    encodeBytes bytes maximum
  | none => Writer.u8 0

/-- The body of the loop of `encode_conditions`. -/
def encodeCondition (limits : ProtocolLimits) : TransactionCondition → Writer Unit
  | .revisionEquals key expectedRevision => do
    Writer.u8 0
    encodeKey key limits
    Writer.u64 expectedRevision
  | .exists key => do
    Writer.u8 1
    encodeKey key limits
  | .notExists key => do
    Writer.u8 2
    encodeKey key limits

def encodeConditions (conditions : List TransactionCondition) (limits : ProtocolLimits) : Writer Unit := do
  encodeCount conditions.length limits.maxConditions
  conditions.forM (encodeCondition limits)

/-- The body of the loop of `encode_mutations`. -/
def encodeMutation (limits : ProtocolLimits) : TransactionMutation → Writer Unit
  | .put key value => do
    Writer.u8 0
    encodeKey key limits
    encodeBytes value limits.maxValueSize
  | .delete key => do
    Writer.u8 1
    encodeKey key limits

def encodeMutations (mutations : List TransactionMutation) (limits : ProtocolLimits) : Writer Unit := do
  encodeCount mutations.length limits.maxMutations
  mutations.forM (encodeMutation limits)

def requestOpcode : Request → UInt8
  | .get _ => 1
  | .put _ _ => 2
  | .delete _ => 3
  | .query _ _ _ => 4
  | .scan _ _ => 5
  | .transact _ => 8

def responseOpcode : Response → UInt8
  | .get _ => 1
  | .put _ => 2
  | .delete _ => 3
  | .query _ => 4
  | .scan _ => 5
  | .transact _ => 8

/-- The `match` of `encode_request_payload`, behind the opcode. -/
def encodeRequestBody (request : Request) (limits : ProtocolLimits) : Writer Unit :=
  match request with
  | .get key => encodeKey key limits
  | .put key value => do
    encodeKey key limits
    encodeBytes value limits.maxValueSize
  | .delete key => encodeKey key limits
  | .query pk exclusiveAfterSk limit => do
    Eff.ofExcept (validateKeyParts pk (exclusiveAfterSk.getD []) limits)
    encodeBytes pk limits.maxKeyComponentSize
    encodeOptionalBytes exclusiveAfterSk limits.maxKeyComponentSize
    encodeLimit limit limits.maxQueryLimit
  | .scan exclusiveAfterKey limit => do
    encodeOptionalKey exclusiveAfterKey limits
    encodeLimit limit limits.maxScanLimit
  | .transact request => do
    encodeConditions request.conditions limits
    encodeMutations request.mutations limits

def encodeRequestPayload (request : Request) (limits : ProtocolLimits) : Writer Unit := do
  Writer.u8 (requestOpcode request)
  encodeRequestBody request limits

/-- The body of the loop of `encode_documents`. -/
def encodeDocument (limits : ProtocolLimits) (document : Document) : Writer Unit := do
  encodeKey document.key limits
  encodeBytes document.value limits.maxValueSize
  Writer.u64 document.revision

def encodeDocuments (documents : List Document) (limits : ProtocolLimits) : Writer Unit := do
  encodeCount documents.length limits.maxScanLimit
  documents.forM (encodeDocument limits)

def encodeRevisionState (state : RevisionState) (limits : ProtocolLimits) : Writer Unit :=
  match state with
  | .present value revision => do
    Writer.u8 0
    encodeBytes value limits.maxValueSize
    Writer.u64 revision
  | .missing revision => do
    Writer.u8 1
    Writer.u64 revision

def encodeObservedState (state : ObservedState) : Writer Unit :=
  match state with
  | .present revision => do
    Writer.u8 0
    Writer.u64 revision
  | .missing revision => do
    Writer.u8 1
    Writer.u64 revision

def encodeTransactionOutcome (outcome : TransactionOutcome) : Writer Unit :=
  match outcome.commitLsn with
  | some commitLsn => do
    Writer.u8 1
    Writer.u64 commitLsn
  | none => Writer.u8 0

def encodeResponsePayload (response : Response) (limits : ProtocolLimits) : Writer Unit :=
  match response with
  | .get state => encodeRevisionState state limits
  | .put revision | .delete revision => Writer.u64 revision
  | .query documents | .scan documents => encodeDocuments documents limits
  | .transact outcome => encodeTransactionOutcome outcome

def applicationErrorKindCode : ApplicationErrorKind → UInt8
  | .invalidRequest => 0
  | .overloaded => 1
  | .conflict => 2
  | .storageFailure => 3
  | .corruption => 4
  | .durabilityFailure => 5
  | .internal => 6
  | .unsupportedProtocol => 7
  | .responseTooLarge => 8

def mutationOutcomeCode : MutationOutcome → UInt8
  | .notApplicable => 0
  | .notApplied => 1
  | .unknown => 2

/-- The `match` of `encode_conflict` on what the condition expected. -/
def encodeExpectation (expected : ConditionExpectation) : Writer Unit :=
  match expected with
  | .revisionEquals revision => do
    Writer.u8 0
    Writer.u64 revision
  | .exists => Writer.u8 1
  | .notExists => Writer.u8 2

def encodeConflict (conflict : ConflictDetails) (limits : ProtocolLimits) : Writer Unit := do
  encodeKey conflict.key limits
  encodeExpectation conflict.expected
  encodeObservedState conflict.actual

/-- The `match` of `encode_application_error` on the conflict. -/
def encodeOptionalConflict (conflict : Option ConflictDetails) (limits : ProtocolLimits) : Writer Unit :=
  match conflict with
  | some conflict => do
    Writer.u8 1
    encodeConflict conflict limits
  | none => Writer.u8 0

/-- `detail.chars().take(maximum).collect()`: the cut is by characters, while `encode_bytes` behind it
counts bytes. -/
def cutDetail (detail : String) (maximum : Nat) : String := String.ofList (detail.toList.take maximum)

def encodeApplicationError (error : ApplicationError) (limits : ProtocolLimits) : Writer Unit := do
  Writer.u8 (applicationErrorKindCode error.kind)
  encodeBytes (Bytes.ofString (cutDetail error.detail limits.maxErrorDetailSize)) limits.maxErrorDetailSize
  Writer.u8 (mutationOutcomeCode error.mutationOutcome)
  encodeOptionalConflict error.conflict limits

/-- What a writer leaves in an empty vector. -/
def finish (writer : Writer Unit) : Except ProtocolError Bytes :=
  match writer.exec [] with
  | (.ok (), payload) => .ok payload
  | (.error e, _) => .error e

def encodeFrame (messageType : UInt8) (payload : Bytes) (maximumFrameSize : Nat) :
    Except ProtocolError Bytes :=
  let frameLength := headerSize + payload.length
  if frameLength > usizeMax then .error .lengthOverflow
  else if frameLength > maximumFrameSize then .error (.payloadTooLarge frameLength maximumFrameSize)
  else do
    let payloadLength ← u32TryFrom payload.length
    return magic ++ Bytes.ofNatBE 2 protocolVersion ++ [messageType] ++ Bytes.ofNatBE 4 payloadLength ++ payload

/-- `encode_request` and `encode_response`, which differ in the payload, the message type and the maximum. -/
def encodeMessage (payload : Writer Unit) (messageType : UInt8) (maximumFrameSize : Nat)
    (limits : ProtocolLimits) : Except ProtocolError Bytes := do
  limits.validate
  let payload ← finish payload
  encodeFrame messageType payload maximumFrameSize

/-- The payload of a request. -/
def encodeTenantRequest (limits : ProtocolLimits) (message : Nat × Request) : Writer Unit := do
  Writer.u64 message.1
  encodeRequestPayload message.2 limits

def encodeRequest (tenant : Nat) (request : Request) (limits : ProtocolLimits) : Except ProtocolError Bytes :=
  encodeMessage (encodeTenantRequest limits (tenant, request)) requestMessageType limits.maxRequestFrameSize
    limits

/-- The `match` of `encode_response`. -/
def encodeEnvelope (response : ResponseEnvelope) (limits : ProtocolLimits) : Writer Unit :=
  match response with
  | .success response => do
    Writer.u8 0
    Writer.u8 (responseOpcode response)
    encodeResponsePayload response limits
  | .error error => do
    Writer.u8 1
    encodeApplicationError error limits

def encodeResponse (response : ResponseEnvelope) (limits : ProtocolLimits) : Except ProtocolError Bytes :=
  encodeMessage (encodeEnvelope response limits) responseMessageType limits.maxResponseFrameSize limits

/-! ## Reading -/

abbrev Reader (α : Type) : Type := Codec.Reader ProtocolError α

namespace Reader

def u8 : Reader UInt8 := do
  match ← get with
  | [] => throw (.err .truncatedPayload)
  | value :: rest => do
    set rest
    return value

def take (length : Nat) : Reader Bytes := do
  let input ← get
  if length ≤ input.length then do
    set (input.drop length)
    return input.take length
  else throw (.err .truncatedPayload)

def u32 : Reader Nat := do
  let bytes ← take 4
  Eff.ofExcept do
    return Bytes.toNatBE [← index bytes 0, ← index bytes 1, ← index bytes 2, ← index bytes 3]

def u64 : Reader Nat := do
  let bytes ← take 8
  Eff.ofExcept do
    return Bytes.toNatBE [← index bytes 0, ← index bytes 1, ← index bytes 2, ← index bytes 3,
      ← index bytes 4, ← index bytes 5, ← index bytes 6, ← index bytes 7]

def count (maximum : Nat) : Reader Nat := do
  let count ← u32
  Eff.ofExcept (lift (checkMaximum count maximum))
  return count

def limit (maximum : Nat) : Reader Nat := count maximum

def bytes (maximum : Nat) : Reader Bytes := do
  let length ← u32
  Eff.ofExcept (lift (checkMaximum length maximum))
  take length

def flag : Reader Bool := do
  match ← u8 with
  | 0 => return false
  | 1 => return true
  | other => throw (.err (.invalidFlag other))

def optionalBytes (maximum : Nat) : Reader (Option Bytes) := do
  match ← flag with
  | false => return none
  | true => do
    let bytes ← bytes maximum
    return some bytes

/-- `finish` and the caller's `then_some`. -/
def run {α : Type} (reader : Reader α) (payload : Bytes) : Except (Fault ProtocolError) α :=
  match reader.exec payload with
  | (.ok value, rest) => if rest = [] then .ok value else .error (.err .trailingBytes)
  | (.error e, _) => .error e

end Reader

def decodeKey (limits : ProtocolLimits) : Reader DocumentKey := do
  let pk ← Reader.bytes limits.maxKeyComponentSize
  let sk ← Reader.bytes limits.maxKeyComponentSize
  Eff.ofExcept (lift (validateKey ⟨pk, sk⟩ limits))
  return ⟨pk, sk⟩

def decodeOptionalKey (limits : ProtocolLimits) : Reader (Option DocumentKey) := do
  match ← Reader.flag with
  | false => return none
  | true => do
    let key ← decodeKey limits
    return some key

/-- The body of the loop of `decode_conditions`. -/
def decodeCondition (limits : ProtocolLimits) : Reader TransactionCondition := do
  let kind ← Reader.u8
  let key ← decodeKey limits
  match kind with
  | 0 => do
    let expectedRevision ← Reader.u64
    return .revisionEquals key expectedRevision
  | 1 => return .exists key
  | 2 => return .notExists key
  | other => throw (.err (.invalidExpectation other))

def decodeConditions (limits : ProtocolLimits) : Reader (List TransactionCondition) := do
  let count ← Reader.count limits.maxConditions
  readMany (decodeCondition limits) count

/-- The body of the loop of `decode_mutations`. -/
def decodeMutation (limits : ProtocolLimits) : Reader TransactionMutation := do
  let kind ← Reader.u8
  let key ← decodeKey limits
  match kind with
  | 0 => do
    let value ← Reader.bytes limits.maxValueSize
    return .put key value
  | 1 => return .delete key
  | other => throw (.err (.invalidOpcode other))

def decodeMutations (limits : ProtocolLimits) : Reader (List TransactionMutation) := do
  let count ← Reader.count limits.maxMutations
  readMany (decodeMutation limits) count

/-- The `match` of `decode_request_payload`, behind the opcode. -/
def decodeRequestBody (opcode : UInt8) (limits : ProtocolLimits) : Reader Request :=
  match opcode with
  | 1 => do
    let key ← decodeKey limits
    return .get key
  | 2 => do
    let key ← decodeKey limits
    let value ← Reader.bytes limits.maxValueSize
    return .put key value
  | 3 => do
    let key ← decodeKey limits
    return .delete key
  | 4 => do
    let pk ← Reader.bytes limits.maxKeyComponentSize
    let exclusiveAfterSk ← Reader.optionalBytes limits.maxKeyComponentSize
    Eff.ofExcept (lift (validateKeyParts pk (exclusiveAfterSk.getD []) limits))
    let limit ← Reader.limit limits.maxQueryLimit
    return .query pk exclusiveAfterSk limit
  | 5 => do
    let exclusiveAfterKey ← decodeOptionalKey limits
    let limit ← Reader.limit limits.maxScanLimit
    return .scan exclusiveAfterKey limit
  | 8 => do
    let conditions ← decodeConditions limits
    let mutations ← decodeMutations limits
    return .transact { conditions, mutations }
  | other => throw (.err (.invalidOpcode other))

def decodeRequestPayload (limits : ProtocolLimits) : Reader Request := do
  let opcode ← Reader.u8
  decodeRequestBody opcode limits

/-- The body of the loop of `decode_documents`. -/
def decodeDocument (limits : ProtocolLimits) : Reader Document := do
  let key ← decodeKey limits
  let value ← Reader.bytes limits.maxValueSize
  let revision ← Reader.u64
  return { key, value, revision }

def decodeDocuments (limits : ProtocolLimits) : Reader (List Document) := do
  let count ← Reader.count limits.maxScanLimit
  readMany (decodeDocument limits) count

def decodeRevisionState (limits : ProtocolLimits) : Reader RevisionState := do
  match ← Reader.u8 with
  | 0 => do
    let value ← Reader.bytes limits.maxValueSize
    let revision ← Reader.u64
    return .present value revision
  | 1 => do
    let revision ← Reader.u64
    return .missing revision
  | other => throw (.err (.invalidRevisionState other))

def decodeObservedState : Reader ObservedState := do
  match ← Reader.u8 with
  | 0 => do
    let revision ← Reader.u64
    return .present revision
  | 1 => do
    let revision ← Reader.u64
    return .missing revision
  | other => throw (.err (.invalidRevisionState other))

def decodeTransactionOutcome : Reader TransactionOutcome := do
  match ← Reader.u8 with
  | 0 => return { commitLsn := none }
  | 1 => do
    let commitLsn ← Reader.u64
    return { commitLsn := some commitLsn }
  | other => throw (.err (.invalidFlag other))

def decodeResponsePayload (opcode : UInt8) (limits : ProtocolLimits) : Reader Response :=
  match opcode with
  | 1 => do
    let state ← decodeRevisionState limits
    return .get state
  | 2 => do
    let revision ← Reader.u64
    return .put revision
  | 3 => do
    let revision ← Reader.u64
    return .delete revision
  | 4 => do
    let documents ← decodeDocuments limits
    return .query documents
  | 5 => do
    let documents ← decodeDocuments limits
    return .scan documents
  | 8 => do
    let outcome ← decodeTransactionOutcome
    return .transact outcome
  | other => throw (.err (.invalidOpcode other))

def applicationErrorKind (code : UInt8) : Except ProtocolError ApplicationErrorKind :=
  match code with
  | 0 => .ok .invalidRequest
  | 1 => .ok .overloaded
  | 2 => .ok .conflict
  | 3 => .ok .storageFailure
  | 4 => .ok .corruption
  | 5 => .ok .durabilityFailure
  | 6 => .ok .internal
  | 7 => .ok .unsupportedProtocol
  | 8 => .ok .responseTooLarge
  | other => .error (.invalidErrorKind other)

def mutationOutcome (code : UInt8) : Except ProtocolError MutationOutcome :=
  match code with
  | 0 => .ok .notApplicable
  | 1 => .ok .notApplied
  | 2 => .ok .unknown
  | other => .error (.invalidFlag other)

/-- `String::from_utf8` with the error the protocol gives it. -/
def fromUtf8 (bytes : Bytes) : Except ProtocolError String :=
  match Bytes.toString? bytes with
  | some detail => .ok detail
  | none => .error .invalidUtf8

/-- The `match` of `decode_conflict` on the kind of the expectation. -/
def decodeExpectation : Reader ConditionExpectation := do
  match ← Reader.u8 with
  | 0 => do
    let revision ← Reader.u64
    return .revisionEquals revision
  | 1 => return .exists
  | 2 => return .notExists
  | other => throw (.err (.invalidExpectation other))

def decodeConflict (limits : ProtocolLimits) : Reader ConflictDetails := do
  let key ← decodeKey limits
  let expected ← decodeExpectation
  let actual ← decodeObservedState
  return { key, expected, actual }

/-- The `match` of `decode_application_error` on the flag of the conflict. -/
def decodeOptionalConflict (limits : ProtocolLimits) : Reader (Option ConflictDetails) := do
  match ← Reader.flag with
  | true => do
    let conflict ← decodeConflict limits
    return some conflict
  | false => return none

def decodeApplicationError (limits : ProtocolLimits) : Reader ApplicationError := do
  let code ← Reader.u8
  let kind ← Eff.ofExcept (lift (applicationErrorKind code))
  let bytes ← Reader.bytes limits.maxErrorDetailSize
  let detail ← Eff.ofExcept (lift (fromUtf8 bytes))
  let outcome ← Reader.u8
  let mutationOutcome ← Eff.ofExcept (lift (mutationOutcome outcome))
  let conflict ← decodeOptionalConflict limits
  return { kind, detail, mutationOutcome, conflict }

def decodeHeader (bytes : Bytes) : Except (Fault ProtocolError) FrameHeader :=
  if bytes.length < headerSize then .error (.err .truncatedHeader) else do
  let start ← sliceTo bytes 4
  if start ≠ magic then throw (.err .invalidMagic) else
  let version := Bytes.toNatBE [← index bytes 4, ← index bytes 5]
  if version ≠ protocolVersion then throw (.err (.unsupportedVersion version)) else
  let messageType ← index bytes 6
  if messageType ≠ requestMessageType ∧ messageType ≠ responseMessageType then
    throw (.err (.unknownMessageType messageType))
  else
  let payloadLength := Bytes.toNatBE [← index bytes 7, ← index bytes 8, ← index bytes 9, ← index bytes 10]
  return { version, messageType, payloadLength }

def validatePayloadLength (header : FrameHeader) (payload : Bytes) (maximumFrameSize : Nat) :
    Except ProtocolError Unit :=
  let frameLength := headerSize + header.payloadLength
  if frameLength > usizeMax then .error .lengthOverflow
  else if frameLength > maximumFrameSize then .error (.payloadTooLarge frameLength maximumFrameSize)
  else if payload.length < header.payloadLength then .error .truncatedPayload
  else if payload.length ≠ header.payloadLength then .error .trailingBytes
  else .ok ()

/-- `decode_request_parts` and `decode_response_parts`, which differ in the reader, in the message type and
in the maximum. -/
def decodeParts {α : Type} (reader : Reader α) (messageType : UInt8) (maximumFrameSize : Nat)
    (limits : ProtocolLimits) (header : FrameHeader) (payload : Bytes) : Except (Fault ProtocolError) α := do
  lift limits.validate
  lift (validatePayloadLength header payload maximumFrameSize)
  if header.messageType ≠ messageType then throw (.err (.unknownMessageType header.messageType)) else
  reader.run payload

/-- `decode_request_frame` and `decode_response_frame`: the header, the bytes behind it, whose number the
header must give, and the parts. -/
def decodeFrame {α : Type} (reader : Reader α) (messageType : UInt8) (maximumFrameSize : Nat)
    (limits : ProtocolLimits) (frame : Bytes) : Except (Fault ProtocolError) α := do
  if frame.length < headerSize then throw (.err .truncatedHeader) else
  let header ← decodeHeader (frame.take headerSize)
  if frame.length < headerSize + header.payloadLength then throw (.err .truncatedPayload) else
  if frame.length ≠ headerSize + header.payloadLength then throw (.err .trailingBytes) else
  let payload ← sliceFrom frame headerSize
  decodeParts reader messageType maximumFrameSize limits header payload

def decodeTenantRequest (limits : ProtocolLimits) : Reader (Nat × Request) := do
  let tenant ← Reader.u64
  let request ← decodeRequestPayload limits
  return (tenant, request)

def decodeRequestFrame (frame : Bytes) (limits : ProtocolLimits) :
    Except (Fault ProtocolError) (Nat × Request) :=
  decodeFrame (decodeTenantRequest limits) requestMessageType limits.maxRequestFrameSize limits frame

/-- The `match` of `decode_response_parts` on the status. -/
def decodeEnvelope (expectedResponseType : Option UInt8) (limits : ProtocolLimits) :
    Reader ResponseEnvelope := do
  match ← Reader.u8 with
  | 0 => do
    let actual ← Reader.u8
    match expectedResponseType.filter (actual ≠ ·) with
    | some expected => throw (.err (.invalidResponseType expected actual))
    | none => do
      let response ← decodeResponsePayload actual limits
      return .success response
  | 1 => do
    let error ← decodeApplicationError limits
    return .error error
  | other => throw (.err (.invalidStatus other))

def decodeResponseFrame (frame : Bytes) (expectedResponseType : Option UInt8) (limits : ProtocolLimits) :
    Except (Fault ProtocolError) ResponseEnvelope :=
  decodeFrame (decodeEnvelope expectedResponseType limits) responseMessageType limits.maxResponseFrameSize
    limits frame

end Protocol

end Dodb
