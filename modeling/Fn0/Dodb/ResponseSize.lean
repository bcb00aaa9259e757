/-
How long a response is on the wire and when it can be written at all.

Every writer of a response succeeds exactly when its message is within the limits, and its length is a
function of the message (`Sized`). A frame is then written exactly when the payload is within the limits, the
frame within its maximum, and the payload's length a 32-bit word.

The detail of an error is the one part that is not limited by the writer's own means: it is cut to as many
characters as it may have bytes, and refused if these characters are more bytes.
-/
import Mathlib
import Fn0.Dodb.ProtocolFacts

namespace Dodb

namespace Protocol

open Codec

/-! ## Sizes and limits -/

def keySize (key : DocumentKey) : Nat := (4 + key.pk.length) + (4 + key.sk.length)

def expectationSize : ConditionExpectation → Nat
  | .revisionEquals _ => 1 + 8
  | .exists | .notExists => 1

/-- The flag of the conflict and the conflict. -/
def conflictSize : Option ConflictDetails → Nat
  | some conflict => 1 + (keySize conflict.key + (expectationSize conflict.expected + (1 + 8)))
  | none => 1

/-- The bytes of the first characters of a text, as many as it may have bytes. -/
def detailBytes (limits : ProtocolLimits) (detail : String) : Nat :=
  String.utf8Len (detail.toList.take limits.maxErrorDetailSize)

/-- The payload of an error response. -/
def errorSize (limits : ProtocolLimits) (error : ApplicationError) : Nat :=
  1 + (1 + ((4 + detailBytes limits error.detail) + (1 + conflictSize error.conflict)))

structure KeyWithin (limits : ProtocolLimits) (key : DocumentKey) : Prop where
  encoded : key.encodedLen ≤ limits.maxEncodedKeySize
  pk : key.pk.length ≤ limits.maxKeyComponentSize
  sk : key.sk.length ≤ limits.maxKeyComponentSize

/-- The key of a conflict is within the limits. -/
def ConflictWithin (limits : ProtocolLimits) (conflict : Option ConflictDetails) : Prop :=
  ∀ details ∈ conflict, KeyWithin limits details.key

theorem validate_bounds {limits : ProtocolLimits} (h : limits.validate = .ok ()) :
    limits.maxKeyComponentSize < 2 ^ 32 ∧ limits.maxValueSize < 2 ^ 32 := by
  unfold ProtocolLimits.validate at h
  split at h
  · cases h
  · split at h
    · cases h
    next hmax =>
      simp only [maxStorageKeyComponentSize, maxStorageEncodedKeySize, maxStorageValueSize] at hmax
      omega

/-! ## The writers -/

theorem sized_u8 (value : UInt8) : Sized (Writer.u8 value) True 1 := (writes_u8 value).sized

theorem sized_u32 (value : Nat) : Sized (Writer.u32 value) True 4 := (writes_u32 value).sized.congr Iff.rfl (by simp)

theorem sized_u64 (value : Nat) : Sized (Writer.u64 value) True 8 := (writes_u64 value).sized.congr Iff.rfl (by simp)

theorem u32TryFrom_isOk {n : Nat} : (∃ m, u32TryFrom n = .ok m) ↔ n < 2 ^ 32 :=
  ⟨fun ⟨_, h⟩ => (u32TryFrom_eq_ok.mp h).1, fun h => ⟨n, u32TryFrom_eq_ok.mpr ⟨h, rfl⟩⟩⟩

theorem checkMaximum_isOk {length maximum : Nat} : (∃ u, checkMaximum length maximum = .ok u) ↔ length ≤ maximum :=
  ⟨fun ⟨_, h⟩ => checkMaximum_eq_ok.mp h, fun h => ⟨(), checkMaximum_eq_ok.mpr h⟩⟩

theorem validateKey_isOk {limits : ProtocolLimits} {key : DocumentKey} :
    (∃ u, validateKey key limits = .ok u) ↔ key.encodedLen ≤ limits.maxEncodedKeySize := by
  unfold validateKey validateKeyParts
  dsimp only
  split
  next h => simp [h]
  next h => simpa using h

theorem sized_bytes (bytes : Bytes) (maximum : Nat) :
    Sized (encodeBytes bytes maximum) (bytes.length ≤ maximum ∧ bytes.length < 2 ^ 32) (4 + bytes.length) := by
  refine Sized.checked checkMaximum_isOk fun _ _ => ?_
  refine (Sized.checked u32TryFrom_isOk fun n _ => (sized_u32 n).bind (writes_raw bytes).sized).congr ?_ rfl
  simp

section

variable {limits : ProtocolLimits} (hlimits : limits.validate = .ok ())

include hlimits

theorem sized_key (key : DocumentKey) : Sized (encodeKey key limits) (KeyWithin limits key) (keySize key) := by
  have hmax := (validate_bounds hlimits).1
  refine (Sized.checked validateKey_isOk fun _ _ => (sized_bytes key.pk _).bind (sized_bytes key.sk _)).congr ?_ rfl
  constructor
  · rintro ⟨hkey, ⟨hpk, -⟩, hsk, -⟩
    exact ⟨hkey, hpk, hsk⟩
  · rintro ⟨hkey, hpk, hsk⟩
    exact ⟨hkey, ⟨hpk, by omega⟩, hsk, by omega⟩

omit hlimits in
theorem sized_expectation (expected : ConditionExpectation) :
    Sized (encodeExpectation expected) True (expectationSize expected) := by
  cases expected with
  | revisionEquals revision => exact ((sized_u8 0).bind (sized_u64 revision)).congr (by simp) rfl
  | «exists» => exact sized_u8 1
  | notExists => exact sized_u8 2

omit hlimits in
theorem sized_observedState (state : ObservedState) : Sized (encodeObservedState state) True (1 + 8) := by
  cases state with
  | present revision => exact ((sized_u8 0).bind (sized_u64 revision)).congr (by simp) rfl
  | missing revision => exact ((sized_u8 1).bind (sized_u64 revision)).congr (by simp) rfl

theorem sized_optionalConflict (conflict : Option ConflictDetails) :
    Sized (encodeOptionalConflict conflict limits) (ConflictWithin limits conflict) (conflictSize conflict) := by
  cases conflict with
  | none => exact (sized_u8 0).congr (by simp [ConflictWithin]) rfl
  | some conflict =>
    exact ((sized_u8 1).bind ((sized_key hlimits conflict.key).bind
      ((sized_expectation conflict.expected).bind (sized_observedState conflict.actual)))).congr
      (by simp [ConflictWithin]) rfl

omit hlimits in
theorem length_cutDetail (detail : String) :
    (Bytes.ofString (cutDetail detail limits.maxErrorDetailSize)).length = detailBytes limits detail :=
  String.utf8ByteSize_ofList _

theorem sized_error (error : ApplicationError) :
    Sized (encodeEnvelope (.error error) limits)
      ((detailBytes limits error.detail ≤ limits.maxErrorDetailSize ∧ detailBytes limits error.detail < 2 ^ 32) ∧
        ConflictWithin limits error.conflict) (errorSize limits error) := by
  have hdetail := sized_bytes (Bytes.ofString (cutDetail error.detail limits.maxErrorDetailSize))
    limits.maxErrorDetailSize
  rw [length_cutDetail] at hdetail
  exact ((sized_u8 1).bind ((sized_u8 _).bind (hdetail.bind ((sized_u8 _).bind
    (sized_optionalConflict hlimits error.conflict))))).congr (by simp) rfl

end

/-! ## Frames -/

section

variable {limits : ProtocolLimits} {writer : Writer Unit} {P : Prop} {n : Nat}

theorem finish_sized (h : Sized writer P n) :
    ((∃ payload, finish writer = .ok payload) ↔ P) ∧ ∀ payload, finish writer = .ok payload → payload.length = n := by
  have hsat := h []
  unfold Eff.Sat at hsat
  unfold finish
  rcases hex : writer.exec [] with ⟨e | ⟨⟩, out⟩ <;> rw [hex] at hsat
  · refine ⟨⟨?_, fun hp => absurd hp hsat⟩, ?_⟩
    · rintro ⟨_, ⟨⟩⟩
    · rintro _ ⟨⟩
  · refine ⟨⟨fun _ => hsat.1, fun _ => ⟨out, rfl⟩⟩, ?_⟩
    rintro _ ⟨⟩
    simpa using hsat.2

/-- When a frame is written. -/
theorem encodeMessage_isOk (messageType : UInt8) (maximum : Nat) (h : limits.validate = .ok () → Sized writer P n) :
    (∃ frame, encodeMessage writer messageType maximum limits = .ok frame) ↔
      limits.validate = .ok () ∧ P ∧ headerSize + n ≤ maximum ∧ n < 2 ^ 32 := by
  constructor
  · rintro ⟨frame, hf⟩
    obtain ⟨_, hlimits, hf⟩ := Except.bind_eq_ok.mp hf
    obtain ⟨payload, hpayload, hf⟩ := Except.bind_eq_ok.mp hf
    obtain ⟨hmax, hword, -⟩ := encodeFrame_eq_ok.mp hf
    obtain ⟨hp, hlen⟩ := finish_sized (h hlimits)
    rw [hlen payload hpayload] at hmax hword
    exact ⟨hlimits, hp.mp ⟨payload, hpayload⟩, hmax, hword⟩
  · rintro ⟨hlimits, hp, hmax, hword⟩
    obtain ⟨hiff, hlen⟩ := finish_sized (h hlimits)
    obtain ⟨payload, hpayload⟩ := hiff.mpr hp
    have hn := hlen payload hpayload
    refine ⟨frameHeader messageType payload.length ++ payload, ?_⟩
    simp only [encodeMessage, hlimits, hpayload, bind, Except.bind]
    exact encodeFrame_eq_ok.mpr ⟨hn ▸ hmax, hn ▸ hword, rfl⟩

end

/-! ## Error responses -/

/-- The frame of an error response has room for its detail, up to the limit of the detail, and for the rest. -/
def ErrorRoom (limits : ProtocolLimits) (error : ApplicationError) : Prop :=
  headerSize + (1 + (1 + ((4 + min (detailBytes limits error.detail) limits.maxErrorDetailSize) +
    (1 + conflictSize error.conflict)))) ≤ limits.maxResponseFrameSize

/-- The error that is sent: its detail is cut. -/
def cutError (limits : ProtocolLimits) (error : ApplicationError) : ApplicationError :=
  { error with detail := cutDetail error.detail limits.maxErrorDetailSize }

theorem length_cutDetail_le (detail : String) (maximum : Nat) : (cutDetail detail maximum).length ≤ maximum := by
  rw [cutDetail, String.length_ofList, List.length_take]
  exact Nat.min_le_left _ _

/-- What is cut is not cut again. -/
theorem encodeEnvelope_cutError (limits : ProtocolLimits) (error : ApplicationError) :
    encodeEnvelope (.error (cutError limits error)) limits = encodeEnvelope (.error error) limits := by
  have hcut : cutDetail (cutError limits error).detail limits.maxErrorDetailSize =
      cutDetail error.detail limits.maxErrorDetailSize := cutDetail_of_length_le (length_cutDetail_le _ _)
  simp only [encodeEnvelope, encodeApplicationError, hcut]
  rfl

/-- A frame written for an error is read as the error with its detail cut. -/
theorem decode_error_frame {limits : ProtocolLimits} {error : ApplicationError} {frame : Bytes}
    (hfits : Fits error.words) (hf : encodeResponse (.error error) limits = .ok frame)
    (expectedResponseType : Option UInt8) :
    decodeResponseFrame frame expectedResponseType limits = .ok (.error (cutError limits error)) := by
  have hf' : encodeResponse (.error (cutError limits error)) limits = .ok frame := by
    rw [encodeResponse, encodeEnvelope_cutError]
    exact hf
  have hmirrors : Mirrors (encodeEnvelope (.error (cutError limits error)) limits)
      (decodeEnvelope expectedResponseType limits) (.error (cutError limits error)) :=
    mirrors_envelope limits hfits (length_cutDetail_le _ _) trivial
  exact decodeFrame_of_mirrors limits (.inr rfl) hmirrors hf'

/-- The error was written, and whoever reads it gets the kind, the outcome and the conflict, with a detail that
starts as the one given and is within its limit. -/
def ErrorArrives (limits : ProtocolLimits) (error : ApplicationError) : Prop :=
  ∃ frame decoded, encodeResponse (.error error) limits = .ok frame ∧
    (∀ expectedResponseType, decodeResponseFrame frame expectedResponseType limits = .ok (.error decoded)) ∧
    decoded.kind = error.kind ∧ decoded.mutationOutcome = error.mutationOutcome ∧
    decoded.conflict = error.conflict ∧ decoded.detail.toList <+: error.detail.toList ∧
    (Bytes.ofString decoded.detail).length ≤ limits.maxErrorDetailSize

/-- **An error arrives exactly when the characters its detail is cut to are within the limit in bytes**, and the
payload's length is a 32-bit word: for all limits that are valid and leave room, and every error whose
conflict has a key within the limits. -/
theorem error_arrives_iff (limits : ProtocolLimits) (error : ApplicationError) (hlimits : limits.validate = .ok ())
    (hfits : Fits error.words) (hkey : ConflictWithin limits error.conflict) (hroom : ErrorRoom limits error) :
    ErrorArrives limits error ↔
      String.utf8Len (error.detail.toList.take limits.maxErrorDetailSize) ≤ limits.maxErrorDetailSize ∧
        errorSize limits error < 2 ^ 32 := by
  have hiff := encodeMessage_isOk responseMessageType limits.maxResponseFrameSize
    fun hlimits : limits.validate = .ok () => sized_error hlimits error
  constructor
  · rintro ⟨frame, -, hf, -⟩
    obtain ⟨-, ⟨⟨hdetail, -⟩, -⟩, -, hword⟩ := hiff.mp ⟨frame, hf⟩
    exact ⟨hdetail, hword⟩
  · rintro ⟨hdetail, hword⟩
    change detailBytes limits error.detail ≤ limits.maxErrorDetailSize at hdetail
    unfold ErrorRoom at hroom
    rw [Nat.min_eq_left hdetail] at hroom
    have hless : detailBytes limits error.detail < 2 ^ 32 := by
      unfold errorSize at hword
      omega
    obtain ⟨frame, hf⟩ := hiff.mpr ⟨hlimits, ⟨⟨hdetail, hless⟩, hkey⟩, hroom, hword⟩
    refine ⟨frame, cutError limits error, hf, decode_error_frame hfits hf, rfl, rfl, rfl, ?_, ?_⟩
    · rw [cutError, cutDetail, String.toList_ofList]
      exact List.take_prefix _ _
    · rw [cutError, length_cutDetail]
      exact hdetail

/-- Limits under which the detail of an error has one byte. -/
def oneByteDetail : ProtocolLimits := { ProtocolLimits.default with maxErrorDetailSize := 1 }

/-- An ASCII detail is cut to its first character and arrives. -/
theorem ascii_detail_arrives : ErrorArrives oneByteDetail ⟨.internal, "disk", .unknown, none⟩ :=
  (error_arrives_iff oneByteDetail ⟨.internal, "disk", .unknown, none⟩ (by decide) (by decide)
    (by simp [ConflictWithin]) (by unfold ErrorRoom; decide)).mpr (by decide)

/-- A detail of two characters of two bytes each, which may have one byte: it is cut to a character, and the
error cannot be written. -/
theorem wide_detail_refused :
    oneByteDetail.validate = .ok () ∧ ErrorRoom oneByteDetail ⟨.internal, "éé", .unknown, none⟩ ∧
      encodeResponse (.error ⟨.internal, "éé", .unknown, none⟩) oneByteDetail = .error (.payloadTooLarge 2 1) := by
  refine ⟨by decide, by unfold ErrorRoom; decide, by decide⟩

end Protocol

end Dodb
