import Sunpack.Usn.Protocol
import Sunpack.Usn.Scan

/-!
# Requests are answered

`request_shape_is_valid` and `handle_request` of the watch broker: which requests are taken, and the
response and the payload to each. What the journal reader of a volume says is given.
-/

namespace Sunpack.Usn

open Lib

structure ChangeReasons where
  all : UInt32
  withoutClose : UInt32
  deriving DecidableEq

/-- A page of the journal reader, in the order of its set. -/
structure RecoveryPage where
  changes : List (UInt32 × Name)
  nextUsn : Int64
  journalId : UInt64

/-- The calls of `JournalReader`, each under the name of a volume. -/
structure JournalCalls where
  probeVolume : Name → Except BrokerError (UInt64 × Int64)
  readChangeReasons :
    Name → FileId → UInt8 → Int64 → Int64 → Except BrokerError (UInt64 × ChangeReasons)
  readDirectoriesChanges :
    Name → Option UInt64 → List FileId → Int64 → Int64 → Except BrokerError RecoveryPage
  readRootChanges : Name → FileId → UInt8 → Int64 → Int64 → Except BrokerError RecoveryPage

/-- A volume that is not there. -/
def notFound : BrokerError := ⟨.notFound, "", some 3⟩

instance : Inhabited JournalCalls :=
  ⟨fun _ => .error notFound, fun _ _ _ _ _ => .error notFound, fun _ _ _ _ _ => .error notFound,
    fun _ _ _ _ _ => .error notFound⟩

/-! ## Shapes -/

def rangeIsValid (request : Request) : Prop :=
  0 < request.previousUsn ∧ request.previousUsn < request.currentUsn

instance (request : Request) : Decidable (rangeIsValid request) :=
  inferInstanceAs (Decidable (_ ∧ _))

def requestShapeIsValid (request : Request) : Bool :=
  match request.opcode with
  | .hello | .ping | .release =>
    request.volumeGuid = [] ∧ request.fileIdLen = 0 ∧ request.previousUsn = 0 ∧
      request.currentUsn = 0
  | .probeVolume =>
    request.volumeGuid ≠ [] ∧ request.fileIdLen = 0 ∧ request.previousUsn = 0 ∧
      request.currentUsn = 0
  | .readDirectoriesChanges =>
    request.volumeGuid ≠ [] ∧ request.fileIdLen = 0 ∧ rangeIsValid request
  | .readChangeReasons | .readRootChanges =>
    request.volumeGuid ≠ [] ∧ (request.fileIdLen = 8 ∨ request.fileIdLen = 16) ∧
      rangeIsValid request

/-- The length of a directory query: a journal and at least one identity. -/
def queryLengthIsValid (length : Nat) : Prop :=
  24 ≤ length ∧ length ≤ maxDirectoryQueryBytes ∧ (length - 8) % 16 = 0

instance (length : Nat) : Decidable (queryLengthIsValid length) :=
  inferInstanceAs (Decidable (_ ∧ _ ∧ _))

/-! ## Payloads -/

def maxPayloadBytes : Nat := 64 * 1024

/-- `encode_path_payload`. -/
def encodePathPayload (paths : List Name) : Except BrokerError Bytes :=
  if paths.any fun path => 2 ^ 32 ≤ (toUtf8 path).length then
    .error ⟨.invalidData, "root recovery path is too long", none⟩
  else
    let payload := paths.flatMap fun path => leBytes 4 (toUtf8 path).length ++ toUtf8 path
    if maxPayloadBytes < payload.length then
      .error ⟨.other, "USN root recovery exceeded payload budget", none⟩
    else .ok payload

/-- One change of a directory query. -/
def encodeChange (change : UInt32 × Name) : Bytes :=
  u32Bytes change.1 ++ leBytes 4 (toUtf8 change.2).length ++ toUtf8 change.2

def encodeChanges (changes : List (UInt32 × Name)) : Bytes := changes.flatMap encodeChange

/-! ## Results -/

/-- What a request gives: the numbers of the response, and a payload. -/
structure Outcome where
  journalId : UInt64
  nextUsn : Int64
  reasons : ChangeReasons
  payload : Bytes

/-- `chunks_exact(16)`. -/
def fileIds : Nat → Bytes → List FileId
  | 0, _ => []
  | n + 1, bytes =>
    if h : 16 ≤ bytes.length then ⟨bytes.take 16, List.length_take_of_le h⟩ :: fileIds n (bytes.drop 16)
    else []

def directoriesOutcome (page : RecoveryPage) : Except BrokerError Outcome :=
  let payload := encodeChanges page.changes
  if maxPayloadBytes < payload.length then
    .error ⟨.other, "USN recovery exceeded payload budget", none⟩
  else
    .ok ⟨page.journalId, page.nextUsn,
      ⟨UInt32.ofNat payload.length, UInt32.ofNat page.changes.length⟩, payload⟩

def rootOutcome (page : RecoveryPage) : Except BrokerError Outcome :=
  (encodePathPayload (page.changes.map Prod.snd)).bind fun payload =>
    if 2 ^ 32 ≤ page.changes.length then .error ⟨.other, "too many USN root changes", none⟩
    else
      .ok ⟨page.journalId, page.nextUsn,
        ⟨UInt32.ofNat payload.length, UInt32.ofNat page.changes.length⟩, payload⟩

def readDirectories (journals : JournalCalls) (request : Request) (query : Bytes) :
    Except BrokerError Outcome :=
  if query.length < 24 ∨ (query.length - 8) % 16 ≠ 0 then
    .error ⟨.invalidInput, "invalid directory query", none⟩
  else
    (journals.readDirectoriesChanges request.volumeGuid (some (u64At query 0))
      (fileIds query.length (query.drop 8)) request.previousUsn request.currentUsn).bind
      directoriesOutcome

def outcomeOf (journals : JournalCalls) (request : Request) (query : Bytes) :
    Except BrokerError Outcome :=
  match request.opcode with
  | .hello | .ping | .release => .ok ⟨0, 0, ⟨0, 0⟩, []⟩
  | .probeVolume =>
    (journals.probeVolume request.volumeGuid).map fun r => ⟨r.1, r.2, ⟨0, 0⟩, []⟩
  | .readChangeReasons =>
    (journals.readChangeReasons request.volumeGuid request.fileId request.fileIdLen
      request.previousUsn request.currentUsn).map fun r => ⟨r.1, 0, r.2, []⟩
  | .readDirectoriesChanges => readDirectories journals request query
  | .readRootChanges =>
    (journals.readRootChanges request.volumeGuid request.fileId request.fileIdLen
      request.previousUsn request.currentUsn).bind rootOutcome

/-- `text.contains(part)`. -/
def hasPart (text part : String) : Prop := part.toList <:+: text.toList

instance (text part : String) : Decidable (hasPart text part) :=
  inferInstanceAs (Decidable (_ <:+: _))

/-- The codes 1178, 1179 and 1181 say that the journal is not the one it was. -/
def statusOfError (error : BrokerError) : Status :=
  if error.rawOsError = some 1178 ∨ error.rawOsError = some 1179 ∨ error.rawOsError = some 1181 then
    .journalReset
  else if error.kind = .invalidInput then .invalidRequest
  else if error.kind = .notFound then .notFound
  else if hasPart error.text "scan budget" ∨ hasPart error.text "payload budget" ∨
      hasPart error.text "fallback scan" then .scanLimit
  else if error.rawOsError ≠ none then .journalUnavailable
  else .internalError

def respond (requestId : UInt64) : Except BrokerError Outcome → Response × Bytes
  | .ok outcome =>
    (⟨.ok, requestId, 0, outcome.journalId, outcome.reasons.all, outcome.reasons.withoutClose,
      outcome.nextUsn⟩, outcome.payload)
  | .error error =>
    (⟨statusOfError error, requestId, UInt32.ofNat (error.rawOsError.getD 0), 0, 0, 0, 0⟩, [])

def handleRequest (journals : JournalCalls) (request : Request) (query : Bytes) : Response × Bytes :=
  respond request.requestId (outcomeOf journals request query)

/-! ## A response announces its payload -/

/-- The length that `transact_query` reads off a response. -/
def payloadLen (request : Request) (response : Response) : Nat :=
  if (request.opcode = .readRootChanges ∨ request.opcode = .readDirectoriesChanges) ∧
      response.status = .ok then response.reasonsAll.toNat
  else 0

/-- An outcome whose payload fits into a frame and has the length that it says. -/
structure Outcome.Announces (outcome : Outcome) : Prop where
  fits : outcome.payload.length ≤ maxPayloadBytes
  length : outcome.reasons.all.toNat = outcome.payload.length

theorem toNat_payloadLength {payload : Bytes} (h : payload.length ≤ maxPayloadBytes) :
    (UInt32.ofNat payload.length).toNat = payload.length := by
  rw [UInt32.toNat_ofNat', Nat.mod_eq_of_lt (h.trans_lt (by decide))]

theorem directoriesOutcome_announces {page : RecoveryPage} {outcome : Outcome}
    (h : directoriesOutcome page = .ok outcome) : outcome.Announces := by
  unfold directoriesOutcome at h
  dsimp only at h
  split_ifs at h with hsize
  cases h
  exact ⟨not_lt.1 hsize, toNat_payloadLength (not_lt.1 hsize)⟩

theorem encodePathPayload_le {paths : List Name} {payload : Bytes}
    (h : encodePathPayload paths = .ok payload) : payload.length ≤ maxPayloadBytes := by
  unfold encodePathPayload at h
  dsimp only at h
  split_ifs at h with hlong hsize
  cases h
  exact not_lt.1 hsize

theorem bind_eq_ok {α β : Type} {x : Except BrokerError α} {f : α → Except BrokerError β} {b : β}
    (h : x.bind f = .ok b) : ∃ a, x = .ok a ∧ f a = .ok b := by
  cases x with
  | error e => cases h
  | ok a => exact ⟨a, rfl, h⟩

theorem map_eq_ok {α β : Type} {x : Except BrokerError α} {f : α → β} {b : β}
    (h : x.map f = .ok b) : ∃ a, x = .ok a ∧ f a = b := by
  cases x with
  | error e => cases h
  | ok a => exact ⟨a, rfl, Except.ok.inj h⟩

theorem rootOutcome_announces {page : RecoveryPage} {outcome : Outcome}
    (h : rootOutcome page = .ok outcome) : outcome.Announces := by
  obtain ⟨payload, hpayload, h⟩ := bind_eq_ok h
  have hsize := encodePathPayload_le hpayload
  split_ifs at h
  cases h
  exact ⟨hsize, toNat_payloadLength hsize⟩

theorem outcomeOf_announces {journals : JournalCalls} {request : Request} {query : Bytes}
    {outcome : Outcome} (h : outcomeOf journals request query = .ok outcome)
    (hopcode : request.opcode = .readRootChanges ∨ request.opcode = .readDirectoriesChanges) :
    outcome.Announces := by
  unfold outcomeOf at h
  rcases hopcode with hroot | hdirectories
  · rw [hroot] at h
    obtain ⟨page, _, hpage⟩ := bind_eq_ok h
    exact rootOutcome_announces hpage
  · rw [hdirectories] at h
    dsimp only at h
    unfold readDirectories at h
    split_ifs at h
    obtain ⟨page, _, hpage⟩ := bind_eq_ok h
    exact directoriesOutcome_announces hpage

/-- Only the two recoveries have a payload. -/
theorem outcomeOf_payload {journals : JournalCalls} {request : Request} {query : Bytes}
    {outcome : Outcome} (h : outcomeOf journals request query = .ok outcome)
    (hopcode : ¬(request.opcode = .readRootChanges ∨ request.opcode = .readDirectoriesChanges)) :
    outcome.payload = [] := by
  unfold outcomeOf at h
  cases hop : request.opcode with
  | readRootChanges => exact absurd (Or.inl hop) hopcode
  | readDirectoriesChanges => exact absurd (Or.inr hop) hopcode
  | probeVolume =>
    rw [hop] at h
    obtain ⟨_, _, rfl⟩ := map_eq_ok h
    rfl
  | readChangeReasons =>
    rw [hop] at h
    obtain ⟨_, _, rfl⟩ := map_eq_ok h
    rfl
  | _ =>
    rw [hop] at h
    cases h
    rfl

/-- The client reads as much as the broker has written. -/
theorem payloadLen_handleRequest (journals : JournalCalls) (request : Request) (query : Bytes) :
    payloadLen request (handleRequest journals request query).1 =
        (handleRequest journals request query).2.length ∧
      (handleRequest journals request query).2.length ≤ maxPayloadBytes := by
  unfold handleRequest payloadLen
  cases houtcome : outcomeOf journals request query with
  | error e =>
    refine ⟨?_, Nat.zero_le _⟩
    split_ifs
    · rfl
    · rfl
  | ok outcome =>
    by_cases hopcode : request.opcode = .readRootChanges ∨ request.opcode = .readDirectoriesChanges
    · obtain ⟨hfits, hlength⟩ := outcomeOf_announces houtcome hopcode
      rw [if_pos ⟨hopcode, rfl⟩]
      exact ⟨hlength, hfits⟩
    · have hpayload : (respond request.requestId (.ok outcome)).2 = [] :=
        outcomeOf_payload houtcome hopcode
      rw [if_neg (fun h => hopcode h.1), hpayload]
      exact ⟨rfl, Nat.zero_le _⟩

end Sunpack.Usn
