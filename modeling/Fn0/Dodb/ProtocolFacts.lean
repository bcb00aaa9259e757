/-
The wire codec is a bijection between the messages it admits and the frames it accepts.

Every message has two lemmas: `mirrors_…`, its reader takes off exactly what its writer appended, and
`decodes_…`, what its reader accepts is what its writer writes for the value read. A field of 64 bits is a
natural number in the model, so the first direction is about messages whose words fit (`Fits`); the second
direction shows that a message that was read has them.
-/
import Mathlib
import Fn0.Dodb.Protocol

namespace Dodb

namespace Protocol

open Codec

/-! ## Words -/

/-- Every number is a 64-bit word. -/
def Fits (words : List Nat) : Prop := ∀ n ∈ words, n < 2 ^ 64

instance (words : List Nat) : Decidable (Fits words) := inferInstanceAs (Decidable (∀ n ∈ words, n < 2 ^ 64))

theorem fits_singleton {n : Nat} : Fits [n] ↔ n < 2 ^ 64 := by
  simp [Fits]

theorem fits_cons {n : Nat} {words : List Nat} : Fits (n :: words) ↔ n < 2 ^ 64 ∧ Fits words := by
  simp [Fits]

theorem fits_nil : Fits [] := by
  simp [Fits]

theorem fits_append {xs ys : List Nat} : Fits (xs ++ ys) ↔ Fits xs ∧ Fits ys := by
  simp only [Fits, List.mem_append, or_imp, forall_and]

theorem fits_flatMap {α : Type} {xs : List α} {f : α → List Nat} :
    Fits (xs.flatMap f) ↔ ∀ x ∈ xs, Fits (f x) := by
  simp only [Fits, List.mem_flatMap]
  constructor
  · intro h x hx n hn
    exact h n ⟨x, hx, hn⟩
  · rintro h n ⟨x, hx, hn⟩
    exact h x hx n hn

end Protocol

def TransactionCondition.words : TransactionCondition → List Nat
  | .revisionEquals _ expectedRevision => [expectedRevision]
  | .exists _ | .notExists _ => []

def ConditionExpectation.words : ConditionExpectation → List Nat
  | .revisionEquals revision => [revision]
  | .exists | .notExists => []

/-- The 64-bit fields of a request. -/
def Request.words : Request → List Nat
  | .transact request => request.conditions.flatMap (·.words)
  | .get _ | .put _ _ | .delete _ | .query _ _ _ | .scan _ _ => []

/-- The 64-bit fields of a response. -/
def Response.words : Response → List Nat
  | .get state => [state.revision]
  | .put revision | .delete revision => [revision]
  | .query documents | .scan documents => documents.flatMap fun document => [document.revision]
  | .transact outcome => outcome.commitLsn.toList

namespace Protocol

open Codec

def ConflictDetails.words (conflict : ConflictDetails) : List Nat :=
  conflict.expected.words ++ [conflict.actual.revision]

def ApplicationError.words (error : ApplicationError) : List Nat :=
  error.conflict.toList.flatMap (·.words)

def ResponseEnvelope.words : ResponseEnvelope → List Nat
  | .success response => response.words
  | .error e => e.words

/-- The detail of an error response is within the limit, so that it is not cut. -/
def ResponseEnvelope.DetailWithin (limits : ProtocolLimits) : ResponseEnvelope → Prop
  | .success _ => True
  | .error e => e.detail.length ≤ limits.maxErrorDetailSize

/-- The caller expects the type of this response, or none in particular. -/
def ResponseEnvelope.Expected (expectedResponseType : Option UInt8) : ResponseEnvelope → Prop
  | .success response => expectedResponseType = none ∨ expectedResponseType = some (responseOpcode response)
  | .error _ => True

/-! ## Primitives -/

theorem writes_u8 (value : UInt8) : Writes (Writer.u8 value) [value] := fun _ => rfl

theorem writes_u32 (value : Nat) : Writes (Writer.u32 value) (Bytes.ofNatBE 4 value) := fun _ => rfl

theorem writes_u64 (value : Nat) : Writes (Writer.u64 value) (Bytes.ofNatBE 8 value) := fun _ => rfl

theorem writes_raw (bytes : Bytes) : Writes (Writer.raw bytes) bytes := fun _ => rfl

theorem u32TryFrom_eq_ok {n m : Nat} : u32TryFrom n = .ok m ↔ n < 2 ^ 32 ∧ m = n := by
  unfold u32TryFrom
  by_cases h : n < 2 ^ 32
  · simp only [h, if_true, Except.ok.injEq, true_and, eq_comm]
  · simp only [h, if_false, false_and, reduceCtorEq]

theorem checkMaximum_eq_ok {length maximum : Nat} :
    checkMaximum length maximum = .ok () ↔ length ≤ maximum := by
  unfold checkMaximum
  split
  next h => simp [h]
  next h => simpa using h

theorem reads_u8 (value : UInt8) : Reads Reader.u8 [value] value := fun _ => rfl

theorem reads_take (bytes : Bytes) : Reads (Reader.take bytes.length) bytes bytes := by
  intro rest
  unfold Reader.take
  rw [Eff.exec_bind_ok (Eff.exec_get _), if_pos (by simp), Eff.exec_bind_ok (Eff.exec_set _ _)]
  simp

theorem reads_u32 {n : Nat} (h : n < 2 ^ 32) : Reads Reader.u32 (Bytes.ofNatBE 4 n) n := by
  intro rest
  have hn : Bytes.toNatBE (Bytes.ofNatBE 4 n) = n := Bytes.toNatBE_ofNatBE (by simpa using h)
  have hlen := Bytes.length_ofNatBE 4 n
  generalize Bytes.ofNatBE 4 n = bs at hn hlen
  have htake := reads_take bs rest
  rw [hlen] at htake
  unfold Reader.u32
  rw [Eff.exec_bind_ok htake]
  match bs, hlen with
  | [_, _, _, _], _ => rw [← hn]; rfl

theorem reads_u64 {n : Nat} (h : n < 2 ^ 64) : Reads Reader.u64 (Bytes.ofNatBE 8 n) n := by
  intro rest
  have hn : Bytes.toNatBE (Bytes.ofNatBE 8 n) = n := Bytes.toNatBE_ofNatBE (by simpa using h)
  have hlen := Bytes.length_ofNatBE 8 n
  generalize Bytes.ofNatBE 8 n = bs at hn hlen
  have htake := reads_take bs rest
  rw [hlen] at htake
  unfold Reader.u64
  rw [Eff.exec_bind_ok htake]
  match bs, hlen with
  | [_, _, _, _, _, _, _, _], _ => rw [← hn]; rfl

theorem mirrors_u8 (value : UInt8) : Mirrors (Writer.u8 value) Reader.u8 value :=
  (writes_u8 value).mirrors (reads_u8 value)

theorem mirrors_u64 {n : Nat} (h : n < 2 ^ 64) : Mirrors (Writer.u64 n) Reader.u64 n :=
  (writes_u64 n).mirrors (reads_u64 h)

theorem mirrors_u32 {n : Nat} (h : n < 2 ^ 32) : Mirrors (Writer.u32 n) Reader.u32 n :=
  (writes_u32 n).mirrors (reads_u32 h)

theorem mirrors_raw (bytes : Bytes) : Mirrors (Writer.raw bytes) (Reader.take bytes.length) bytes :=
  (writes_raw bytes).mirrors (reads_take bytes)

theorem mirrors_count (count maximum : Nat) :
    Mirrors (encodeCount count maximum) (Reader.count maximum) count := by
  refine Mirrors.checked fun _ hmax => Mirrors.checked fun n hn => ?_
  obtain ⟨hlt, rfl⟩ := u32TryFrom_eq_ok.mp hn
  exact (mirrors_u32 hlt).andThen (reads_check hmax (reads_pure n))

theorem mirrors_bytes (bytes : Bytes) (maximum : Nat) :
    Mirrors (encodeBytes bytes maximum) (Reader.bytes maximum) bytes := by
  refine Mirrors.checked fun _ hmax => Mirrors.checked fun n hn => ?_
  obtain ⟨hlt, rfl⟩ := u32TryFrom_eq_ok.mp hn
  exact (mirrors_u32 hlt).bind (Mirrors.recheck hmax (mirrors_raw bytes))

theorem mirrors_flag_false : Mirrors (Writer.u8 0) Reader.flag false :=
  (mirrors_u8 0).andThen (reads_pure false)

theorem mirrors_flag_true : Mirrors (Writer.u8 1) Reader.flag true :=
  (mirrors_u8 1).andThen (reads_pure true)

theorem mirrors_optionalBytes (bytes : Option Bytes) (maximum : Nat) :
    Mirrors (encodeOptionalBytes bytes maximum) (Reader.optionalBytes maximum) bytes := by
  cases bytes with
  | none => exact mirrors_flag_false.andThen (reads_pure none)
  | some bytes => exact mirrors_flag_true.bind ((mirrors_bytes bytes maximum).map some)

/-! ## Reading back what was written -/

variable (limits : ProtocolLimits)

theorem mirrors_key (key : DocumentKey) : Mirrors (encodeKey key limits) (decodeKey limits) key := by
  refine Mirrors.checked fun _ hkey => ?_
  refine (mirrors_bytes key.pk _).bind ((mirrors_bytes key.sk _).andThen ?_)
  exact reads_check hkey (reads_pure key)

theorem mirrors_optionalKey (key : Option DocumentKey) :
    Mirrors (encodeOptionalKey key limits) (decodeOptionalKey limits) key := by
  cases key with
  | none => exact mirrors_flag_false.andThen (reads_pure none)
  | some key => exact mirrors_flag_true.bind ((mirrors_key limits key).map some)

theorem mirrors_condition {condition : TransactionCondition} (h : Fits condition.words) :
    Mirrors (encodeCondition limits condition) (decodeCondition limits) condition := by
  cases condition with
  | revisionEquals key expectedRevision =>
    have hword := (mirrors_u64 (fits_singleton.mp h)).map (TransactionCondition.revisionEquals key)
    exact (mirrors_u8 0).bind ((mirrors_key limits key).bind hword)
  | «exists» key => exact (mirrors_u8 1).bind ((mirrors_key limits key).andThen (reads_pure _))
  | notExists key => exact (mirrors_u8 2).bind ((mirrors_key limits key).andThen (reads_pure _))

theorem mirrors_mutation (mutation : TransactionMutation) :
    Mirrors (encodeMutation limits mutation) (decodeMutation limits) mutation := by
  cases mutation with
  | put key value =>
    have hvalue := (mirrors_bytes value limits.maxValueSize).map (TransactionMutation.put key)
    exact (mirrors_u8 0).bind ((mirrors_key limits key).bind hvalue)
  | delete key => exact (mirrors_u8 1).bind ((mirrors_key limits key).andThen (reads_pure _))

theorem mirrors_document {document : Document} (h : Fits [document.revision]) :
    Mirrors (encodeDocument limits document) (decodeDocument limits) document := by
  have hword := (mirrors_u64 (fits_singleton.mp h)).map (Document.mk document.key document.value)
  exact (mirrors_key limits document.key).bind ((mirrors_bytes document.value _).bind hword)

/-- A count and as many items. -/
theorem mirrors_list {α : Type} {w : α → Writer Unit} {r : Reader α} {xs : List α} (maximum : Nat)
    (h : ∀ x ∈ xs, Mirrors (w x) r x) :
    Mirrors (do encodeCount xs.length maximum; xs.forM w)
      (do let count ← Reader.count maximum; readMany r count) xs :=
  (mirrors_count xs.length maximum).bind (mirrors_forM h)

theorem mirrors_transaction {request : TransactionRequest}
    (h : Fits (request.conditions.flatMap (·.words))) :
    Mirrors (encodeRequestBody (.transact request) limits) (decodeRequestBody 8 limits)
      (.transact request) := by
  have hconditions := mirrors_list (w := encodeCondition limits) limits.maxConditions
    (fun c hc => mirrors_condition limits (fits_flatMap.mp h c hc))
  have hmutations := mirrors_list (w := encodeMutation limits) limits.maxMutations
    (fun m (_ : m ∈ request.mutations) => mirrors_mutation limits m)
  exact hconditions.bind (hmutations.map fun mutations =>
    Request.transact { conditions := request.conditions, mutations })

theorem mirrors_request {request : Request} (h : Fits request.words) :
    Mirrors (encodeRequestPayload request limits) (decodeRequestPayload limits) request := by
  refine (mirrors_u8 (requestOpcode request)).bind ?_
  cases request with
  | get key => exact (mirrors_key limits key).map Request.get
  | put key value => exact (mirrors_key limits key).bind ((mirrors_bytes value _).map (Request.put key))
  | delete key => exact (mirrors_key limits key).map Request.delete
  | query pk exclusiveAfterSk limit =>
    refine Mirrors.checked fun _ hkey => (mirrors_bytes pk _).bind ?_
    refine (mirrors_optionalBytes exclusiveAfterSk _).bind (Mirrors.recheck hkey ?_)
    exact (mirrors_count limit _).map (Request.query pk exclusiveAfterSk)
  | scan exclusiveAfterKey limit =>
    exact (mirrors_optionalKey limits exclusiveAfterKey).bind
      ((mirrors_count limit _).map (Request.scan exclusiveAfterKey))
  | transact request => exact mirrors_transaction limits h

theorem mirrors_revisionState {state : RevisionState} (h : Fits [state.revision]) :
    Mirrors (encodeRevisionState state limits) (decodeRevisionState limits) state := by
  have hword := mirrors_u64 (fits_singleton.mp h)
  cases state with
  | present value revision =>
    exact (mirrors_u8 0).bind ((mirrors_bytes value _).bind (hword.map (RevisionState.present value)))
  | missing revision => exact (mirrors_u8 1).bind (hword.map RevisionState.missing)

theorem mirrors_observedState {state : ObservedState} (h : Fits [state.revision]) :
    Mirrors (encodeObservedState state) decodeObservedState state := by
  have hword := mirrors_u64 (fits_singleton.mp h)
  cases state with
  | present revision => exact (mirrors_u8 0).bind (hword.map ObservedState.present)
  | missing revision => exact (mirrors_u8 1).bind (hword.map ObservedState.missing)

theorem mirrors_expectation {expected : ConditionExpectation} (h : Fits expected.words) :
    Mirrors (encodeExpectation expected) decodeExpectation expected := by
  cases expected with
  | revisionEquals revision =>
    have hword := mirrors_u64 (fits_singleton.mp h)
    exact (mirrors_u8 0).bind (hword.map ConditionExpectation.revisionEquals)
  | «exists» => exact (mirrors_u8 1).andThen (reads_pure _)
  | notExists => exact (mirrors_u8 2).andThen (reads_pure _)

theorem mirrors_transactionOutcome {outcome : TransactionOutcome} (h : Fits outcome.commitLsn.toList) :
    Mirrors (encodeTransactionOutcome outcome) decodeTransactionOutcome outcome := by
  obtain ⟨_ | commitLsn⟩ := outcome
  · exact (mirrors_u8 0).andThen (reads_pure _)
  · have hword := (mirrors_u64 (fits_singleton.mp h)).map (fun lsn => TransactionOutcome.mk (some lsn))
    exact (mirrors_u8 1).bind hword

theorem mirrors_documents {documents : List Document}
    (h : Fits (documents.flatMap fun document => [document.revision])) :
    Mirrors (encodeDocuments documents limits) (decodeDocuments limits) documents :=
  mirrors_list limits.maxScanLimit (fun d hd => mirrors_document limits (fits_flatMap.mp h d hd))

theorem mirrors_response {response : Response} (h : Fits response.words) :
    Mirrors (encodeResponsePayload response limits)
      (decodeResponsePayload (responseOpcode response) limits) response := by
  cases response with
  | get state => exact (mirrors_revisionState limits h).map Response.get
  | put revision => exact (mirrors_u64 (fits_singleton.mp h)).map Response.put
  | delete revision => exact (mirrors_u64 (fits_singleton.mp h)).map Response.delete
  | query documents => exact (mirrors_documents limits h).map Response.query
  | scan documents => exact (mirrors_documents limits h).map Response.scan
  | transact outcome => exact (mirrors_transactionOutcome h).map Response.transact

theorem mirrors_optionalConflict {conflict : Option ConflictDetails}
    (h : Fits (conflict.toList.flatMap (·.words))) :
    Mirrors (encodeOptionalConflict conflict limits) (decodeOptionalConflict limits) conflict := by
  cases conflict with
  | none => exact mirrors_flag_false.andThen (reads_pure none)
  | some conflict =>
    obtain ⟨hexpected, hactual⟩ := fits_append.mp (fits_flatMap.mp h conflict (by simp))
    have hstate := (mirrors_observedState hactual).map (ConflictDetails.mk conflict.key conflict.expected)
    exact mirrors_flag_true.bind
      (((mirrors_key limits conflict.key).bind ((mirrors_expectation hexpected).bind hstate)).map some)

theorem applicationErrorKind_code (kind : ApplicationErrorKind) :
    applicationErrorKind (applicationErrorKindCode kind) = .ok kind := by
  cases kind <;> rfl

theorem mutationOutcome_code (outcome : MutationOutcome) :
    mutationOutcome (mutationOutcomeCode outcome) = .ok outcome := by
  cases outcome <;> rfl

theorem cutDetail_of_length_le {detail : String} {maximum : Nat} (h : detail.length ≤ maximum) :
    cutDetail detail maximum = detail := by
  unfold cutDetail
  rw [List.take_of_length_le (by rwa [String.length_toList]), String.ofList_toList]

theorem fromUtf8_ofString (detail : String) : fromUtf8 (Bytes.ofString detail) = .ok detail := by
  simp [fromUtf8]

theorem mirrors_applicationError {error : ApplicationError} (h : Fits error.words)
    (hdetail : error.detail.length ≤ limits.maxErrorDetailSize) :
    Mirrors (encodeApplicationError error limits) (decodeApplicationError limits) error := by
  unfold encodeApplicationError
  rw [cutDetail_of_length_le hdetail]
  refine (mirrors_u8 _).bind (Mirrors.recheck (applicationErrorKind_code error.kind) ?_)
  refine (mirrors_bytes _ _).bind (Mirrors.recheck (fromUtf8_ofString error.detail) ?_)
  refine (mirrors_u8 _).bind (Mirrors.recheck (mutationOutcome_code error.mutationOutcome) ?_)
  exact (mirrors_optionalConflict limits h).map
    (ApplicationError.mk error.kind error.detail error.mutationOutcome)

theorem mirrors_envelope {envelope : ResponseEnvelope} {expectedResponseType : Option UInt8}
    (h : Fits envelope.words) (hdetail : envelope.DetailWithin limits)
    (hexpected : envelope.Expected expectedResponseType) :
    Mirrors (encodeEnvelope envelope limits) (decodeEnvelope expectedResponseType limits) envelope := by
  cases envelope with
  | success response =>
    refine (mirrors_u8 0).bind ((mirrors_u8 (responseOpcode response)).bind ?_)
    have hfilter : expectedResponseType.filter (responseOpcode response ≠ ·) = none := by
      rcases hexpected with rfl | rfl <;> simp
    rw [hfilter]
    exact (mirrors_response limits h).map ResponseEnvelope.success
  | error e => exact (mirrors_u8 1).bind ((mirrors_applicationError limits h hdetail).map ResponseEnvelope.error)

/-! ## What the readers accept -/

theorem decodes_u8 : Decodes Reader.u8 (fun value bs => bs = [value]) := by
  intro input
  unfold Reader.u8
  rw [Eff.sat_bind, Eff.sat_get]
  cases input with
  | nil => exact fun h => by cases h
  | cons value rest => exact ⟨[value], rfl, rfl⟩

theorem decodes_take (length : Nat) :
    Decodes (Reader.take length) (fun value bs => bs = value ∧ value.length = length) := by
  intro input
  unfold Reader.take
  rw [Eff.sat_bind, Eff.sat_get]
  by_cases h : length ≤ input.length
  · rw [if_pos h]
    exact ⟨input.take length, (List.take_append_drop _ _).symm, rfl, by simp [h]⟩
  · rw [if_neg h]
    exact fun h => by cases h

theorem decodes_u32 :
    Decodes Reader.u32 (fun value bs => bs = Bytes.ofNatBE 4 value ∧ value < 2 ^ 32) := by
  intro input
  refine (decodes_take 4 input).bind ?_ (fun _ _ he => he)
  rintro _ rest ⟨bytes, rfl, rfl, hlen⟩
  have hword : Bytes.ofNatBE 4 (Bytes.toNatBE bytes) = bytes ∧ Bytes.toNatBE bytes < 256 ^ 4 :=
    ⟨Bytes.ofNatBE_toNatBE hlen, Bytes.toNatBE_lt hlen⟩
  match bytes, hlen with
  | [_, _, _, _], _ => exact ⟨_, rfl, hword.1.symm, hword.2⟩

theorem decodes_u64 :
    Decodes Reader.u64 (fun value bs => bs = Bytes.ofNatBE 8 value ∧ value < 2 ^ 64) := by
  intro input
  refine (decodes_take 8 input).bind ?_ (fun _ _ he => he)
  rintro _ rest ⟨bytes, rfl, rfl, hlen⟩
  have hword : Bytes.ofNatBE 8 (Bytes.toNatBE bytes) = bytes ∧ Bytes.toNatBE bytes < 256 ^ 8 :=
    ⟨Bytes.ofNatBE_toNatBE hlen, Bytes.toNatBE_lt hlen⟩
  match bytes, hlen with
  | [_, _, _, _, _, _, _, _], _ => exact ⟨_, rfl, hword.1.symm, hword.2⟩

theorem decodes_count (maximum : Nat) :
    Decodes (Reader.count maximum) (fun count bs => Writes (encodeCount count maximum) bs) := by
  refine (decodes_u32).bind fun count => decodes_check fun _ hmax => decodes_pure ?_
  rintro bs ⟨rfl, hlt⟩
  rw [List.append_nil]
  exact .checked hmax (.checked (u32TryFrom_eq_ok.mpr ⟨hlt, rfl⟩) (writes_u32 count))

theorem decodes_bytes (maximum : Nat) :
    Decodes (Reader.bytes maximum)
      (fun value bs => Writes (encodeBytes value maximum) bs ∧ value.length ≤ maximum) := by
  refine (decodes_u32).bind fun length => decodes_check fun _ hmax => (decodes_take length).mono ?_
  rintro value _ ⟨rfl, rfl⟩ _ ⟨rfl, hlt⟩
  refine ⟨.checked hmax (.checked (u32TryFrom_eq_ok.mpr ⟨hlt, rfl⟩) ?_), checkMaximum_eq_ok.mp hmax⟩
  exact (writes_u32 _).bind (writes_raw _)

theorem decodes_flag : Decodes Reader.flag (fun flag bs => bs = [if flag then 1 else 0]) := by
  refine decodes_u8.bind fun value => ?_
  split
  · exact decodes_pure (by rintro _ rfl; rfl)
  · exact decodes_pure (by rintro _ rfl; rfl)
  · exact decodes_throw

theorem decodes_optionalBytes (maximum : Nat) :
    Decodes (Reader.optionalBytes maximum) (fun value bs => Writes (encodeOptionalBytes value maximum) bs) := by
  refine decodes_flag.bind fun flag => ?_
  cases flag with
  | false => exact decodes_pure (by rintro _ rfl; exact writes_u8 0)
  | true =>
    refine (decodes_bytes maximum).bind fun value => decodes_pure ?_
    rintro bs ⟨hbytes, -⟩ _ rfl
    rw [List.append_nil]
    exact (writes_u8 1).bind hbytes

theorem decodes_key : Decodes (decodeKey limits) (fun key bs => Writes (encodeKey key limits) bs) := by
  refine (decodes_bytes _).bind fun pk => (decodes_bytes _).bind fun sk =>
    decodes_check fun _ hkey => decodes_pure ?_
  rintro sks ⟨hsk, -⟩ pks ⟨hpk, -⟩
  rw [List.append_nil]
  exact .checked hkey (hpk.bind hsk)

theorem decodes_optionalKey :
    Decodes (decodeOptionalKey limits) (fun key bs => Writes (encodeOptionalKey key limits) bs) := by
  refine decodes_flag.bind fun flag => ?_
  cases flag with
  | false => exact decodes_pure (by rintro _ rfl; exact writes_u8 0)
  | true =>
    refine (decodes_key limits).bind fun key => decodes_pure ?_
    rintro bs hkey _ rfl
    rw [List.append_nil]
    exact (writes_u8 1).bind hkey

theorem decodes_condition :
    Decodes (decodeCondition limits)
      (fun condition bs => Writes (encodeCondition limits condition) bs ∧ Fits condition.words) := by
  refine decodes_u8.bind fun kind => (decodes_key limits).bind fun key => ?_
  split
  · refine (decodes_u64).bind fun expectedRevision => decodes_pure ?_
    rintro _ ⟨rfl, hlt⟩ bs hkey _ rfl
    rw [List.append_nil]
    exact ⟨(writes_u8 0).bind (hkey.bind (writes_u64 expectedRevision)), fits_singleton.mpr hlt⟩
  · refine decodes_pure ?_
    rintro bs hkey _ rfl
    rw [List.append_nil]
    exact ⟨(writes_u8 1).bind hkey, fits_nil⟩
  · refine decodes_pure ?_
    rintro bs hkey _ rfl
    rw [List.append_nil]
    exact ⟨(writes_u8 2).bind hkey, fits_nil⟩
  · exact decodes_throw

theorem decodes_mutation :
    Decodes (decodeMutation limits)
      (fun mutation bs => Writes (encodeMutation limits mutation) bs ∧ True) := by
  refine decodes_u8.bind fun kind => (decodes_key limits).bind fun key => ?_
  split
  · refine (decodes_bytes _).bind fun value => decodes_pure ?_
    rintro vs ⟨hvalue, -⟩ bs hkey _ rfl
    rw [List.append_nil]
    exact ⟨(writes_u8 0).bind (hkey.bind hvalue), trivial⟩
  · refine decodes_pure ?_
    rintro bs hkey _ rfl
    rw [List.append_nil]
    exact ⟨(writes_u8 1).bind hkey, trivial⟩
  · exact decodes_throw

theorem decodes_document :
    Decodes (decodeDocument limits)
      (fun document bs => Writes (encodeDocument limits document) bs ∧ Fits [document.revision]) := by
  refine (decodes_key limits).bind fun key => (decodes_bytes _).bind fun value =>
    (decodes_u64).bind fun revision => decodes_pure ?_
  rintro _ ⟨rfl, hlt⟩ vs ⟨hvalue, -⟩ bs hkey
  rw [List.append_nil]
  exact ⟨hkey.bind (hvalue.bind (writes_u64 revision)), fits_singleton.mpr hlt⟩

/-- A count and as many items. -/
theorem decodes_list {α : Type} {w : α → Writer Unit} {r : Reader α} {P : α → Prop}
    (h : Decodes r (fun a bs => Writes (w a) bs ∧ P a)) (maximum : Nat) :
    Decodes (do let count ← Reader.count maximum; readMany r count)
      (fun xs bs => Writes (do encodeCount xs.length maximum; xs.forM w) bs ∧ ∀ x ∈ xs, P x) := by
  refine (decodes_count maximum).bind fun count => (decodes_readMany h count).mono ?_
  rintro xs bs ⟨hitems, rfl, hp⟩ cs hcount
  exact ⟨hcount.bind hitems, hp⟩

theorem decodes_requestBody (opcode : UInt8) :
    Decodes (decodeRequestBody opcode limits)
      (fun request bs => requestOpcode request = opcode ∧ Writes (encodeRequestBody request limits) bs
        ∧ Fits request.words) := by
  unfold decodeRequestBody
  split
  · refine (decodes_key limits).bind fun key => decodes_pure fun bs hkey => ?_
    rw [List.append_nil]
    exact ⟨rfl, hkey, fits_nil⟩
  · refine (decodes_key limits).bind fun key => (decodes_bytes _).bind fun value => decodes_pure ?_
    rintro vs ⟨hvalue, -⟩ bs hkey
    rw [List.append_nil]
    exact ⟨rfl, hkey.bind hvalue, fits_nil⟩
  · refine (decodes_key limits).bind fun key => decodes_pure fun bs hkey => ?_
    rw [List.append_nil]
    exact ⟨rfl, hkey, fits_nil⟩
  · refine (decodes_bytes _).bind fun pk => (decodes_optionalBytes _).bind fun exclusiveAfterSk =>
      decodes_check fun _ hkey => (decodes_count _).bind fun limit => decodes_pure ?_
    rintro ls hlimit ss hsk ps ⟨hpk, -⟩
    rw [List.append_nil]
    exact ⟨rfl, .checked hkey (hpk.bind (hsk.bind hlimit)), fits_nil⟩
  · refine (decodes_optionalKey limits).bind fun key => (decodes_count _).bind fun limit => decodes_pure ?_
    rintro ls hlimit ks hkey
    rw [List.append_nil]
    exact ⟨rfl, hkey.bind hlimit, fits_nil⟩
  · refine (decodes_list (decodes_condition limits) _).bind fun conditions =>
      (decodes_list (decodes_mutation limits) _).bind fun mutations => decodes_pure ?_
    rintro ms ⟨hmutations, -⟩ cs ⟨hconditions, hfits⟩
    rw [List.append_nil]
    exact ⟨rfl, hconditions.bind hmutations, fits_flatMap.mpr hfits⟩
  · exact decodes_throw

theorem decodes_request :
    Decodes (decodeRequestPayload limits)
      (fun request bs => Writes (encodeRequestPayload request limits) bs ∧ Fits request.words) := by
  refine decodes_u8.bind fun opcode => (decodes_requestBody limits opcode).mono ?_
  rintro request bs ⟨rfl, hbody, hfits⟩ _ rfl
  exact ⟨(writes_u8 _).bind hbody, hfits⟩

theorem decodes_revisionState :
    Decodes (decodeRevisionState limits)
      (fun state bs => Writes (encodeRevisionState state limits) bs ∧ Fits [state.revision]) := by
  refine decodes_u8.bind fun tag => ?_
  split
  · refine (decodes_bytes _).bind fun value => (decodes_u64).bind fun revision => decodes_pure ?_
    rintro _ ⟨rfl, hlt⟩ vs ⟨hvalue, -⟩ _ rfl
    rw [List.append_nil]
    exact ⟨(writes_u8 0).bind (hvalue.bind (writes_u64 revision)), fits_singleton.mpr hlt⟩
  · refine (decodes_u64).bind fun revision => decodes_pure ?_
    rintro _ ⟨rfl, hlt⟩ _ rfl
    rw [List.append_nil]
    exact ⟨(writes_u8 1).bind (writes_u64 revision), fits_singleton.mpr hlt⟩
  · exact decodes_throw

theorem decodes_observedState :
    Decodes decodeObservedState
      (fun state bs => Writes (encodeObservedState state) bs ∧ Fits [state.revision]) := by
  refine decodes_u8.bind fun tag => ?_
  split
  · refine (decodes_u64).bind fun revision => decodes_pure ?_
    rintro _ ⟨rfl, hlt⟩ _ rfl
    rw [List.append_nil]
    exact ⟨(writes_u8 0).bind (writes_u64 revision), fits_singleton.mpr hlt⟩
  · refine (decodes_u64).bind fun revision => decodes_pure ?_
    rintro _ ⟨rfl, hlt⟩ _ rfl
    rw [List.append_nil]
    exact ⟨(writes_u8 1).bind (writes_u64 revision), fits_singleton.mpr hlt⟩
  · exact decodes_throw

theorem decodes_expectation :
    Decodes decodeExpectation
      (fun expected bs => Writes (encodeExpectation expected) bs ∧ Fits expected.words) := by
  refine decodes_u8.bind fun tag => ?_
  split
  · refine (decodes_u64).bind fun revision => decodes_pure ?_
    rintro _ ⟨rfl, hlt⟩ _ rfl
    rw [List.append_nil]
    exact ⟨(writes_u8 0).bind (writes_u64 revision), fits_singleton.mpr hlt⟩
  · exact decodes_pure (by rintro _ rfl; exact ⟨writes_u8 1, fits_nil⟩)
  · exact decodes_pure (by rintro _ rfl; exact ⟨writes_u8 2, fits_nil⟩)
  · exact decodes_throw

theorem decodes_transactionOutcome :
    Decodes decodeTransactionOutcome
      (fun outcome bs => Writes (encodeTransactionOutcome outcome) bs ∧ Fits outcome.commitLsn.toList) := by
  refine decodes_u8.bind fun tag => ?_
  split
  · exact decodes_pure (by rintro _ rfl; exact ⟨writes_u8 0, fits_nil⟩)
  · refine (decodes_u64).bind fun commitLsn => decodes_pure ?_
    rintro _ ⟨rfl, hlt⟩ _ rfl
    rw [List.append_nil]
    exact ⟨(writes_u8 1).bind (writes_u64 commitLsn), fits_singleton.mpr hlt⟩
  · exact decodes_throw

theorem decodes_response (opcode : UInt8) :
    Decodes (decodeResponsePayload opcode limits)
      (fun response bs => responseOpcode response = opcode ∧
        Writes (encodeResponsePayload response limits) bs ∧ Fits response.words) := by
  unfold decodeResponsePayload
  split
  · refine (decodes_revisionState limits).bind fun state => decodes_pure ?_
    rintro bs ⟨hstate, hfits⟩
    rw [List.append_nil]
    exact ⟨rfl, hstate, hfits⟩
  · refine (decodes_u64).bind fun revision => decodes_pure ?_
    rintro _ ⟨rfl, hlt⟩
    rw [List.append_nil]
    exact ⟨rfl, writes_u64 revision, fits_singleton.mpr hlt⟩
  · refine (decodes_u64).bind fun revision => decodes_pure ?_
    rintro _ ⟨rfl, hlt⟩
    rw [List.append_nil]
    exact ⟨rfl, writes_u64 revision, fits_singleton.mpr hlt⟩
  · refine (decodes_list (decodes_document limits) _).bind fun documents => decodes_pure ?_
    rintro bs ⟨hdocuments, hfits⟩
    rw [List.append_nil]
    exact ⟨rfl, hdocuments, fits_flatMap.mpr hfits⟩
  · refine (decodes_list (decodes_document limits) _).bind fun documents => decodes_pure ?_
    rintro bs ⟨hdocuments, hfits⟩
    rw [List.append_nil]
    exact ⟨rfl, hdocuments, fits_flatMap.mpr hfits⟩
  · refine decodes_transactionOutcome.bind fun outcome => decodes_pure ?_
    rintro bs ⟨houtcome, hfits⟩
    rw [List.append_nil]
    exact ⟨rfl, houtcome, hfits⟩
  · exact decodes_throw

theorem decodes_optionalConflict :
    Decodes (decodeOptionalConflict limits)
      (fun conflict bs => Writes (encodeOptionalConflict conflict limits) bs ∧
        Fits (conflict.toList.flatMap (·.words))) := by
  refine decodes_flag.bind fun flag => ?_
  cases flag with
  | false => exact decodes_pure (by rintro _ rfl; exact ⟨writes_u8 0, fits_nil⟩)
  | true =>
    refine Decodes.bind (Q := fun conflict bs => Writes (encodeConflict conflict limits) bs ∧
      Fits conflict.words) ?_ fun conflict => decodes_pure ?_
    · refine (decodes_key limits).bind fun key => decodes_expectation.bind fun expected =>
        decodes_observedState.bind fun actual => decodes_pure ?_
      rintro as ⟨hactual, hfits'⟩ es ⟨hexpected, hfits⟩ bs hkey
      rw [List.append_nil]
      exact ⟨hkey.bind (hexpected.bind hactual), fits_append.mpr ⟨hfits, hfits'⟩⟩
    · rintro bs ⟨hconflict, hfits⟩ _ rfl
      rw [List.append_nil]
      exact ⟨(writes_u8 1).bind hconflict, fits_flatMap.mpr (by simpa using hfits)⟩

theorem code_of_applicationErrorKind {code : UInt8} {kind : ApplicationErrorKind}
    (h : applicationErrorKind code = .ok kind) : applicationErrorKindCode kind = code := by
  unfold applicationErrorKind at h
  split at h <;> cases h <;> rfl

theorem code_of_mutationOutcome {code : UInt8} {outcome : MutationOutcome}
    (h : mutationOutcome code = .ok outcome) : mutationOutcomeCode outcome = code := by
  unfold mutationOutcome at h
  split at h <;> cases h <;> rfl

theorem ofString_of_fromUtf8 {bytes : Bytes} {detail : String} (h : fromUtf8 bytes = .ok detail) :
    Bytes.ofString detail = bytes := by
  unfold fromUtf8 at h
  split at h
  next hs => cases h; exact Bytes.ofString_of_toString? hs
  next => cases h

theorem decodes_applicationError :
    Decodes (decodeApplicationError limits)
      (fun error bs => Writes (encodeApplicationError error limits) bs ∧ Fits error.words ∧
        error.detail.length ≤ limits.maxErrorDetailSize) := by
  refine decodes_u8.bind fun code => decodes_check fun kind hkind => (decodes_bytes _).bind fun bytes =>
    decodes_check fun detail hdetail => decodes_u8.bind fun out => decodes_check fun outcome houtcome =>
    (decodes_optionalConflict limits).bind fun conflict => decodes_pure ?_
  rintro cs ⟨hconflict, hfits⟩ _ rfl ds ⟨hbytes, hmax⟩ _ rfl
  rw [List.append_nil]
  have htext : Bytes.ofString detail = bytes := ofString_of_fromUtf8 hdetail
  -- the reader counts bytes, the cut of the writer counts characters
  have hchars : detail.length ≤ limits.maxErrorDetailSize :=
    (Bytes.length_le_ofString detail).trans (htext ▸ hmax)
  refine ⟨?_, hfits, hchars⟩
  unfold encodeApplicationError
  rw [cutDetail_of_length_le hchars, htext, code_of_applicationErrorKind hkind,
    code_of_mutationOutcome houtcome]
  exact (writes_u8 code).bind (hbytes.bind ((writes_u8 out).bind hconflict))

theorem decodes_envelope (expectedResponseType : Option UInt8) :
    Decodes (decodeEnvelope expectedResponseType limits)
      (fun envelope bs => Writes (encodeEnvelope envelope limits) bs ∧ Fits envelope.words ∧
        envelope.DetailWithin limits ∧ envelope.Expected expectedResponseType) := by
  refine decodes_u8.bind fun status => ?_
  split
  · refine decodes_u8.bind fun actual => ?_
    split
    · exact decodes_throw
    next hfilter =>
      refine (decodes_response limits actual).bind fun response => decodes_pure ?_
      rintro bs ⟨rfl, hresponse, hfits⟩ _ rfl _ rfl
      rw [List.append_nil]
      refine ⟨(writes_u8 0).bind ((writes_u8 _).bind hresponse), hfits, trivial, ?_⟩
      cases expectedResponseType with
      | none => exact .inl rfl
      | some expected =>
        have hsame : ¬ responseOpcode response ≠ expected := by simpa using hfilter
        exact .inr (congrArg some (not_not.mp hsame).symm)
  · refine (decodes_applicationError limits).bind fun error => decodes_pure ?_
    rintro bs ⟨herror, hfits, hdetail⟩ _ rfl
    rw [List.append_nil]
    exact ⟨(writes_u8 1).bind herror, hfits, hdetail, trivial⟩
  · exact decodes_throw

/-! ## Frames -/

theorem finish_eq_ok {writer : Writer Unit} {payload : Bytes} :
    finish writer = .ok payload ↔ writer.exec [] = (.ok (), payload) := by
  unfold finish
  rcases writer.exec [] with ⟨e | _, out⟩ <;> simp

theorem run_of_mirrors {α : Type} {writer : Writer Unit} {reader : Reader α} {payload : Bytes} {a : α}
    (h : Mirrors writer reader a) (hw : finish writer = .ok payload) : reader.run payload = .ok a := by
  obtain ⟨bs, rfl, hr⟩ := h [] payload (finish_eq_ok.mp hw)
  have := hr []
  rw [List.append_nil] at this
  simp [Reader.run, this]

theorem of_run_eq_ok {α : Type} {reader : Reader α} {w : α → Writer Unit} {P : α → Prop} {payload : Bytes}
    {a : α} (h : Decodes reader (fun a bs => Writes (w a) bs ∧ P a)) (hr : reader.run payload = .ok a) :
    finish (w a) = .ok payload ∧ P a := by
  unfold Reader.run at hr
  rcases hex : reader.exec payload with ⟨e | a', rest⟩ <;> rw [hex] at hr
  · cases hr
  · dsimp only at hr
    split at hr
    next hrest =>
      cases hr
      obtain ⟨bs, rfl, hw, hp⟩ := h.of_exec hex
      refine ⟨finish_eq_ok.mpr ?_, hp⟩
      rw [hrest, List.append_nil]
      exact hw []
    next => cases hr

theorem run_ne_panic {α : Type} {reader : Reader α} {Q : α → Bytes → Prop} {payload : Bytes}
    (h : Decodes reader Q) : reader.run payload ≠ .error .panic := by
  unfold Reader.run
  rcases hex : reader.exec payload with ⟨e | a, rest⟩
  · simpa using h.ne_panic hex
  · dsimp only
    split <;> simp

/-- The header of a frame. -/
def frameHeader (messageType : UInt8) (payloadLength : Nat) : Bytes :=
  magic ++ Bytes.ofNatBE 2 protocolVersion ++ [messageType] ++ Bytes.ofNatBE 4 payloadLength

theorem length_frameHeader (messageType : UInt8) (payloadLength : Nat) :
    (frameHeader messageType payloadLength).length = headerSize := by
  simp [frameHeader, magic, headerSize]

theorem encodeFrame_eq_ok {messageType : UInt8} {payload frame : Bytes} {maximumFrameSize : Nat} :
    encodeFrame messageType payload maximumFrameSize = .ok frame ↔
      headerSize + payload.length ≤ maximumFrameSize ∧ payload.length < 2 ^ 32 ∧
        frame = frameHeader messageType payload.length ++ payload := by
  unfold encodeFrame
  have hword : payload.length < 2 ^ 32 → headerSize + payload.length ≤ usizeMax := by
    unfold headerSize usizeMax; omega
  dsimp only
  by_cases hlt : payload.length < 2 ^ 32
  · have := hword hlt
    rw [if_neg (by omega)]
    split
    next h => simp; omega
    next h =>
      rw [u32TryFrom_eq_ok.mpr ⟨hlt, rfl⟩]
      simp only [bind, Except.bind, pure, Except.pure, Except.ok.injEq, frameHeader]
      exact ⟨fun he => ⟨by omega, hlt, he.symm⟩, fun he => he.2.2.symm⟩
  · have herr : u32TryFrom payload.length = .error .lengthOverflow := if_neg hlt
    simp only [hlt, false_and, and_false, iff_false]
    split
    · simp
    · split
      · simp
      · simp [herr, bind, Except.bind]

theorem decodeHeader_frameHeader {messageType : UInt8} {payloadLength : Nat}
    (ht : messageType = requestMessageType ∨ messageType = responseMessageType)
    (hlen : payloadLength < 2 ^ 32) :
    decodeHeader (frameHeader messageType payloadLength) =
      .ok ⟨protocolVersion, messageType, payloadLength⟩ := by
  have hn : Bytes.toNatBE (Bytes.ofNatBE 4 payloadLength) = payloadLength :=
    Bytes.toNatBE_ofNatBE (by simpa using hlen)
  have hfour := Bytes.length_ofNatBE 4 payloadLength
  unfold frameHeader
  generalize Bytes.ofNatBE 4 payloadLength = bs at hn hfour
  match bs, hfour with
  | [_, _, _, _], _ =>
    rw [← hn]
    rcases ht with rfl | rfl <;> rfl

/-- **A header that is accepted is the header the writer makes.** On eleven bytes no index is out of
range. -/
theorem decodeHeader_cases {bytes : Bytes} (hlen : bytes.length = headerSize) :
    (∃ messageType payloadLength, (messageType = requestMessageType ∨ messageType = responseMessageType) ∧
      payloadLength < 2 ^ 32 ∧ bytes = frameHeader messageType payloadLength) ∨
    ∃ e, decodeHeader bytes = .error (.err e) := by
  match bytes, hlen with
  | [b0, b1, b2, b3, b4, b5, b6, b7, b8, b9, b10], _ =>
    by_cases hmagic : [b0, b1, b2, b3] = magic
    · by_cases hversion : Bytes.toNatBE [b4, b5] = protocolVersion
      · by_cases htype : b6 = requestMessageType ∨ b6 = responseMessageType
        · have hlt : Bytes.toNatBE [b7, b8, b9, b10] < 256 ^ 4 := Bytes.toNatBE_lt rfl
          refine .inl ⟨b6, Bytes.toNatBE [b7, b8, b9, b10], htype, by omega, ?_⟩
          have h2 : Bytes.ofNatBE 2 protocolVersion = [b4, b5] := by
            rw [← hversion]; exact Bytes.ofNatBE_toNatBE rfl
          have h4 : Bytes.ofNatBE 4 (Bytes.toNatBE [b7, b8, b9, b10]) = [b7, b8, b9, b10] :=
            Bytes.ofNatBE_toNatBE rfl
          rw [frameHeader, h2, h4, ← hmagic]
          rfl
        · refine .inr ⟨.unknownMessageType b6, ?_⟩
          simp_all [decodeHeader, headerSize, sliceTo, index, bind, Except.bind, throw, throwThe,
            MonadExceptOf.throw]
      · refine .inr ⟨.unsupportedVersion (Bytes.toNatBE [b4, b5]), ?_⟩
        simp_all [decodeHeader, headerSize, sliceTo, index, bind, Except.bind, throw, throwThe,
          MonadExceptOf.throw]
    · refine .inr ⟨.invalidMagic, ?_⟩
      simp_all [decodeHeader, headerSize, sliceTo, bind, Except.bind, throw, throwThe,
        MonadExceptOf.throw]

/-- The checks of a frame's length on both sides: what the writer lets pass, the reader does. -/
theorem validatePayloadLength_eq_ok {header : FrameHeader} {payload : Bytes} {maximumFrameSize : Nat}
    (hlen : payload.length = header.payloadLength) (hlt : payload.length < 2 ^ 32) :
    validatePayloadLength header payload maximumFrameSize = .ok () ↔
      headerSize + payload.length ≤ maximumFrameSize := by
  unfold validatePayloadLength
  have hword : ¬ headerSize + header.payloadLength > usizeMax := by
    unfold headerSize usizeMax; omega
  simp only [hword, if_false]
  split
  next h => simp; omega
  next h => simp [hlen]; omega

section Frames

variable {α : Type} {reader : Reader α} {messageType : UInt8} {maximumFrameSize : Nat} {frame : Bytes} {a : α}
  (ht : messageType = requestMessageType ∨ messageType = responseMessageType)

/-- A frame of a message type, behind its header. -/
theorem decodeFrame_frameHeader {actual : UInt8} {payload : Bytes}
    (hactual : actual = requestMessageType ∨ actual = responseMessageType)
    (hlen : payload.length < 2 ^ 32) :
    decodeFrame reader messageType maximumFrameSize limits (frameHeader actual payload.length ++ payload) =
      decodeParts reader messageType maximumFrameSize limits
        ⟨protocolVersion, actual, payload.length⟩ payload := by
  have hsize := length_frameHeader actual payload.length
  have hhead : (frameHeader actual payload.length ++ payload).take headerSize =
      frameHeader actual payload.length := by
    rw [← hsize, List.take_left]
  have htail : (frameHeader actual payload.length ++ payload).drop headerSize = payload := by
    rw [← hsize, List.drop_left]
  unfold decodeFrame
  rw [hhead, decodeHeader_frameHeader hactual hlen]
  simp [hsize, sliceFrom, htail, bind, Except.bind]

/-- Whatever is handed over to the parts is a header and a payload of the length it gives; on the way there
nothing panics. -/
theorem decodeFrame_cases (reader : Reader α) (messageType : UInt8) (maximumFrameSize : Nat) (frame : Bytes) :
    (∃ actual payload, (actual = requestMessageType ∨ actual = responseMessageType) ∧
      payload.length < 2 ^ 32 ∧ frame = frameHeader actual payload.length ++ payload) ∨
    ∃ e, decodeFrame reader messageType maximumFrameSize limits frame = .error (.err e) := by
  unfold decodeFrame
  by_cases hshort : frame.length < headerSize
  · exact .inr ⟨.truncatedHeader, by rw [if_pos hshort]; rfl⟩
  rw [if_neg hshort]
  have hhead : (frame.take headerSize).length = headerSize := by simp; omega
  rcases decodeHeader_cases hhead with ⟨actual, n, hactual, hn, heq⟩ | ⟨e, he⟩
  · rw [heq, decodeHeader_frameHeader hactual hn]
    simp only [bind, Except.bind]
    by_cases hless : frame.length < headerSize + n
    · exact .inr ⟨.truncatedPayload, by rw [if_pos hless]; rfl⟩
    by_cases hne : frame.length ≠ headerSize + n
    · exact .inr ⟨.trailingBytes, by rw [if_neg hless, if_pos hne]; rfl⟩
    have hrest : (frame.drop headerSize).length = n := by simp; omega
    refine .inl ⟨actual, frame.drop headerSize, hactual, by omega, ?_⟩
    rw [hrest, ← heq, List.take_append_drop]
  · exact .inr ⟨e, by rw [he]; rfl⟩

include ht in
/-- A message that was encoded is decoded to itself. -/
theorem decodeFrame_of_mirrors {writer : Writer Unit} (h : Mirrors writer reader a)
    (he : encodeMessage writer messageType maximumFrameSize limits = .ok frame) :
    decodeFrame reader messageType maximumFrameSize limits frame = .ok a := by
  obtain ⟨_, hlimits, he⟩ := Except.bind_eq_ok.mp he
  obtain ⟨payload, hpayload, he⟩ := Except.bind_eq_ok.mp he
  obtain ⟨hmax, hlt, rfl⟩ := encodeFrame_eq_ok.mp he
  have hlen : validatePayloadLength ⟨protocolVersion, messageType, payload.length⟩ payload maximumFrameSize =
      .ok () := (validatePayloadLength_eq_ok rfl hlt).mpr hmax
  rw [decodeFrame_frameHeader limits ht hlt]
  simp only [decodeParts, hlimits, hlen, lift_ok, bind, Except.bind, ne_eq, not_true, if_false,
    run_of_mirrors h hpayload]

/-- A frame that is decoded is the encoding of what it is decoded to. -/
theorem encodeMessage_of_decodes {w : α → Writer Unit} {P : α → Prop}
    (h : Decodes reader (fun a bs => Writes (w a) bs ∧ P a))
    (hd : decodeFrame reader messageType maximumFrameSize limits frame = .ok a) :
    encodeMessage (w a) messageType maximumFrameSize limits = .ok frame ∧ P a := by
  rcases decodeFrame_cases limits reader messageType maximumFrameSize frame with
    ⟨actual, payload, hactual, hlt, rfl⟩ | ⟨e, he⟩
  · rw [decodeFrame_frameHeader limits hactual hlt, decodeParts] at hd
    obtain ⟨_, hlimits, hd⟩ := Except.bind_eq_ok.mp hd
    obtain ⟨_, hlen, hd⟩ := Except.bind_eq_ok.mp hd
    split at hd
    · cases hd
    next htype =>
      obtain ⟨hpayload, hp⟩ := of_run_eq_ok h hd
      have hmax := (validatePayloadLength_eq_ok rfl hlt).mp (lift_eq_ok.mp hlen)
      have hsame : actual = messageType := not_not.mp htype
      have hframe : encodeFrame messageType payload maximumFrameSize =
          .ok (frameHeader actual payload.length ++ payload) :=
        encodeFrame_eq_ok.mpr ⟨hmax, hlt, by rw [hsame]⟩
      refine ⟨?_, hp⟩
      simp only [encodeMessage, lift_eq_ok.mp hlimits, hpayload, bind, Except.bind, hframe]
  · rw [he] at hd; cases hd

theorem decodeFrame_ne_panic {Q : α → Bytes → Prop} (h : Decodes reader Q) (frame : Bytes) :
    decodeFrame reader messageType maximumFrameSize limits frame ≠ .error .panic := by
  rcases decodeFrame_cases limits reader messageType maximumFrameSize frame with
    ⟨actual, payload, hactual, hlt, rfl⟩ | ⟨e, he⟩
  · rw [decodeFrame_frameHeader limits hactual hlt, decodeParts]
    rcases limits.validate with e | _
    · simp [bind, Except.bind]
    rcases validatePayloadLength ⟨protocolVersion, actual, payload.length⟩ payload maximumFrameSize with e | _
    · simp [bind, Except.bind]
    simp only [lift_ok, bind, Except.bind]
    split
    · exact fun he => by cases he
    · exact run_ne_panic h
  · simp [he]

end Frames

theorem mirrors_tenantRequest {message : Nat × Request} (h : Fits (message.1 :: message.2.words)) :
    Mirrors (encodeTenantRequest limits message) (decodeTenantRequest limits) message := by
  obtain ⟨htenant, hrequest⟩ := fits_cons.mp h
  exact (mirrors_u64 htenant).bind ((mirrors_request limits hrequest).map (Prod.mk message.1))

theorem decodes_tenantRequest :
    Decodes (decodeTenantRequest limits)
      (fun message bs => Writes (encodeTenantRequest limits message) bs ∧
        Fits (message.1 :: message.2.words)) := by
  refine (decodes_u64).bind fun tenant => (decodes_request limits).bind fun request => decodes_pure ?_
  rintro bs ⟨hrequest, hfits⟩ _ ⟨rfl, hlt⟩
  rw [List.append_nil]
  exact ⟨(writes_u64 tenant).bind hrequest, fits_cons.mpr ⟨hlt, hfits⟩⟩

/-- **The wire codec is a bijection between the messages it admits and the frames it accepts.** A frame that
was written is read back as the message it was written for; a frame that is read is, byte for byte, what the
message it was read as is written to; and no bytes make a reader panic. A message's numbers are 64-bit words
(`Fits`), the detail of an error response is within the limit, and the reader of a response expects its type
or none in particular: what is read has all of these. -/
theorem wire_codec_bijective :
    (∀ tenant request frame, Fits (tenant :: request.words) →
      encodeRequest tenant request limits = .ok frame →
      decodeRequestFrame frame limits = .ok (tenant, request)) ∧
    (∀ tenant request frame, decodeRequestFrame frame limits = .ok (tenant, request) →
      encodeRequest tenant request limits = .ok frame ∧ Fits (tenant :: request.words)) ∧
    (∀ envelope expectedResponseType frame, Fits envelope.words → envelope.DetailWithin limits →
      envelope.Expected expectedResponseType → encodeResponse envelope limits = .ok frame →
      decodeResponseFrame frame expectedResponseType limits = .ok envelope) ∧
    (∀ envelope expectedResponseType frame,
      decodeResponseFrame frame expectedResponseType limits = .ok envelope →
      encodeResponse envelope limits = .ok frame ∧ Fits envelope.words ∧ envelope.DetailWithin limits ∧
        envelope.Expected expectedResponseType) ∧
    (∀ frame, decodeRequestFrame frame limits ≠ .error .panic) ∧
    (∀ frame expectedResponseType, decodeResponseFrame frame expectedResponseType limits ≠ .error .panic) := by
  refine ⟨?_, ?_, ?_, ?_, ?_, ?_⟩
  · intro tenant request frame hfits hencode
    exact decodeFrame_of_mirrors limits (.inl rfl) (mirrors_tenantRequest limits hfits) hencode
  · intro tenant request frame hdecode
    exact encodeMessage_of_decodes limits (decodes_tenantRequest limits) hdecode
  · intro envelope expectedResponseType frame hfits hdetail hexpected hencode
    exact decodeFrame_of_mirrors limits (.inr rfl) (mirrors_envelope limits hfits hdetail hexpected) hencode
  · intro envelope expectedResponseType frame hdecode
    exact encodeMessage_of_decodes limits (decodes_envelope limits expectedResponseType) hdecode
  · exact decodeFrame_ne_panic limits (decodes_tenantRequest limits)
  · exact fun frame expectedResponseType =>
      decodeFrame_ne_panic limits (decodes_envelope limits expectedResponseType) frame

/-- A transaction with a condition and two mutations, there and back. -/
theorem transaction_frame_round_trip :
    ∃ frame, encodeRequest 7 (.transact
        { conditions := [.revisionEquals ⟨[1], [2]⟩ 3]
          mutations := [.put ⟨[1], [2]⟩ [0, 255], .delete ⟨[], [0]⟩] }) .default = .ok frame ∧
      decodeRequestFrame frame .default = .ok (7, .transact
        { conditions := [.revisionEquals ⟨[1], [2]⟩ 3]
          mutations := [.put ⟨[1], [2]⟩ [0, 255], .delete ⟨[], [0]⟩] }) := by
  refine ⟨_, rfl, (wire_codec_bijective .default).1 _ _ _ (by decide) rfl⟩

end Protocol

end Dodb
