import Sunpack.Usn.InStep
import Sunpack.Usn.Recovery

/-!
# Recovery of directories, end to end

`read_directories_changes` of the broker's journal reader, and `broker_for_each_directory_change` of the
client: batches of directories, pages of changes, and the payload of each page. What the client observes
is what the journal has.
-/

namespace Sunpack.Usn

open Lib

/-! ## The broker's side -/

/-- An open volume, for one call: the journal with its first and its next USN, and its records. -/
structure Volume where
  bounds : Except BrokerError (UInt64 × Int64 × Int64)
  read : Device

def asciiLower (b : UInt8) : UInt8 := if 65 ≤ b ∧ b ≤ 90 then b + 32 else b

def isAsciiHexdigit (b : UInt8) : Bool := 48 ≤ b ∧ b ≤ 57 ∨ 97 ≤ asciiLower b ∧ asciiLower b ≤ 102

/-- The places of the dashes, in the text of 36 bytes between the braces. -/
def isDash (index : Nat) : Bool := index = 8 ∨ index = 13 ∨ index = 18 ∨ index = 23

def volumeStart : Bytes := toUtf8 "\\\\?\\volume\x7b".toList

def volumeGuidIsValid (bytes : Bytes) : Prop :=
  bytes.length = 48 ∧ (bytes.take 11).map asciiLower = volumeStart ∧ bytes[47]? = some 125 ∧
    (∀ index ∈ [19, 24, 29, 34], bytes[index]? = some 45) ∧
    ∀ entry ∈ ((bytes.drop 11).take 36).zipIdx, isDash entry.2 = true ∨ isAsciiHexdigit entry.1 = true

instance (bytes : Bytes) : Decidable (volumeGuidIsValid bytes) :=
  inferInstanceAs (Decidable (_ ∧ _ ∧ _ ∧ _ ∧ _))

def validateVolumeGuid (name : Name) : Except BrokerError Unit :=
  if volumeGuidIsValid (toUtf8 name) then .ok ()
  else .error ⟨.invalidInput, "invalid NT volume GUID", none⟩

def IoError.toBroker (e : IoError) : BrokerError :=
  ⟨if e.kind = .invalidData then .invalidData else .other, e.text, none⟩

/-! ### A page always has a result -/

theorem recordBody_total (directories : List Bytes) (startUsn cursor endUsn : Int)
    (t : Bytes × Collected) :
    Gives (Sum.elim (fun t' => t'.1.length < t.1.length) fun _ => True)
      (recordBody directories startUsn cursor endUsn t) := by
  unfold recordBody
  dsimp only
  split_ifs with hnil hshort hlength
  · exact ⟨_, rfl, trivial⟩
  · exact ⟨_, rfl, trivial⟩
  · exact ⟨_, rfl, trivial⟩
  · refine ⟨_, rfl, ?_⟩
    unfold readRecord
    split
    · trivial
    · unfold takeRecord
      dsimp only
      split_ifs
      · trivial
      · trivial
      · trivial
      · show (t.1.drop (field t.1 0 4)).length < t.1.length
        rw [List.length_drop]
        omega

theorem scanReply_total (directories : List Bytes) (startUsn cursor endUsn : Int) (reply : Bytes)
    (collected : Collected) :
    Gives (fun _ => True) (scanReply directories startUsn cursor endUsn reply collected) := by
  apply Gives.loop (fun _ => True) (fun t : Bytes × Collected => t.1.length)
  · intro t _
    apply (recordBody_total directories startUsn cursor endUsn t).mono
    rintro (t' | r) h
    · exact ⟨trivial, h⟩
    · trivial
  · trivial
  · exact Nat.lt_succ_self _

theorem pageBody_total (read : Device) (directories : List Bytes) (startUsn endUsn : Int)
    (s : PageState) :
    Gives (Sum.elim (fun s' => (endUsn - s'.cursor).toNat < (endUsn - s.cursor).toNat) fun _ => True)
      (pageBody read directories startUsn endUsn s) := by
  unfold pageBody
  split_ifs with hdone
  · exact ⟨_, rfl, trivial⟩
  · unfold takeReply
    split
    · exact ⟨_, rfl, trivial⟩
    · rename_i reply hreply
      split_ifs with hsize
      · exact ⟨_, rfl, trivial⟩
      · obtain ⟨result, hresult, _⟩ := scanReply_total directories startUsn s.cursor endUsn
          (reply.drop 8) s.collected
        rw [hresult]
        refine ⟨_, rfl, ?_⟩
        unfold advance
        split
        · trivial
        · trivial
        · split_ifs with hstuck
          · trivial
          · show (endUsn - usnAt reply 0).toNat < (endUsn - s.cursor).toNat
            omega

theorem scanDirectoriesPage_total (read : Device) (directories : List Bytes) (startUsn endUsn : Int)
    (reads : Nat) : (scanDirectoriesPage read directories startUsn endUsn reads).isSome := by
  obtain ⟨result, hresult, _⟩ : Gives (fun _ => True)
      (scanDirectoriesPage read directories startUsn endUsn reads) := by
    apply Gives.loop (fun _ => True) (fun s : PageState => (endUsn - s.cursor).toNat)
    · intro s _
      apply (pageBody_total read directories startUsn endUsn s).mono
      rintro (s' | r) h
      · exact ⟨trivial, h⟩
      · trivial
    · trivial
    · exact Nat.lt_succ_self _
  rw [hresult]
  rfl

/-- The order of the set is that of the indices and then of the names. -/
def inOrder (changes : Finset Change) : List Change :=
  ((changes.map toLex.toEmbedding).sort (· ≤ ·)).map ofLex

def recoveryPage (journalId : UInt64) (page : DirectoryChangesPage) : RecoveryPage :=
  ⟨(inOrder page.changes).map fun change => (UInt32.ofNat change.1, change.2),
    Int64.ofInt page.nextUsn, journalId⟩

def readDirectoriesChangesFromVolume (volume : Volume) (journalId : UInt64)
    (directories : List FileId) (startUsn endUsn : Int64) : Except BrokerError RecoveryPage :=
  let scanned := (scanDirectoriesPage volume.read (directories.map Subtype.val) startUsn.toInt
    endUsn.toInt 0).get (scanDirectoriesPage_total _ _ _ _ _)
  (scanned.1.mapError IoError.toBroker).map (recoveryPage journalId)

def checkedRange (volume : Volume) (expectedJournal : Option UInt64) (directories : List FileId)
    (startUsn endUsn : Int64) (bounds : UInt64 × Int64 × Int64) : Except BrokerError RecoveryPage :=
  if (∃ expected ∈ expectedJournal, expected ≠ bounds.1) ∨ startUsn < bounds.2.1 then
    .error ⟨.other, "", some 1178⟩
  else if bounds.2.2 < endUsn then
    .error ⟨.invalidInput, "recovery end USN is beyond journal head", none⟩
  else readDirectoriesChangesFromVolume volume bounds.1 directories startUsn endUsn

/-- `read_directories_changes`, where `openVolume` is what the cache of handles gives. -/
def readDirectoriesChanges (openVolume : Name → Except BrokerError Volume) (volumeGuid : Name)
    (expectedJournal : Option UInt64) (directories : List FileId) (startUsn endUsn : Int64) :
    Except BrokerError RecoveryPage :=
  if startUsn ≤ 0 ∨ endUsn ≤ startUsn ∨ directories = [] then
    .error ⟨.invalidInput, "invalid directory recovery query", none⟩
  else (validateVolumeGuid volumeGuid).bind fun _ =>
    (openVolume volumeGuid).bind fun volume =>
      volume.bounds.bind (checkedRange volume expectedJournal directories startUsn endUsn)

/-! ## The client's side -/

/-- What a connection answers to its requests, by their number. -/
abbrev Transact := Nat → Request → Bytes → Except BrokerError (Response × Bytes)

/-- What the caller does with an index and a name. -/
abbrev Observe (σ : Type) := σ → Nat → Name → Except BrokerError σ

/-- The text of a refusal is left out. -/
def ensureOk (response : Response) : Except BrokerError Response :=
  if response.status = .ok then .ok response
  else if response.win32Error ≠ 0 then .error ⟨.other, "", some response.win32Error.toNat⟩
  else
    .error ⟨if response.status = .invalidRequest then .invalidInput
      else if response.status = .notFound then .notFound else .other,
      "SunPack Watch Broker returned an error", none⟩

structure PayloadState (σ : Type) where
  input : Bytes
  count : Nat
  observed : σ

def observeName {σ : Type} (observe : Observe σ) (s : PayloadState σ) (index length : Nat)
    (input : Bytes) : Option Name → PayloadState σ ⊕ Except BrokerError (PayloadState σ)
  | none => .inr (.error ⟨.other, "invalid directory change UTF-8", none⟩)
  | some name =>
    match observe s.observed index name with
    | .error e => .inr (.error e)
    | .ok observed => .inl ⟨input.drop length, s.count + 1, observed⟩

/-- One change of a payload; `base` is the index of the first directory of the batch. -/
def payloadBody {σ : Type} (observe : Observe σ) (base ids : Nat) (s : PayloadState σ) :
    Option (PayloadState σ ⊕ Except BrokerError (PayloadState σ)) :=
  some <|
    if s.input = [] then .inr (.ok s)
    else if s.input.length < 8 then .inr (.error ⟨.other, "truncated directory change", none⟩)
    else
      let index := field s.input 0 4
      let length := field s.input 4 4
      let input := s.input.drop 8
      if ids ≤ index ∨ input.length < length then
        .inr (.error ⟨.other, "invalid directory change", none⟩)
      else observeName observe s (base + index) length input (fromUtf8 (input.take length))

def readPayload {σ : Type} (observe : Observe σ) (base ids : Nat) (payload : Bytes) (observed : σ) :
    Option (Except BrokerError (PayloadState σ)) :=
  loop (payloadBody observe base ids) (payload.length + 1) ⟨payload, 0, observed⟩

/-- A batch of directories in the middle of its pages. -/
structure BatchState (σ : Type) where
  cursor : Int64
  requests : Nat
  observed : σ

def nextPage {σ : Type} (s : BatchState σ) (response : Response) :
    Except BrokerError (PayloadState σ) → BatchState σ ⊕ Except BrokerError (BatchState σ)
  | .error e => .inr (.error e)
  | .ok result =>
    if result.count ≠ response.reasonsWithoutClose.toNat then
      .inr (.error ⟨.other, "directory recovery count mismatch", none⟩)
    else .inl ⟨response.nextUsn, s.requests + 1, result.observed⟩

def takePage {σ : Type} (observe : Observe σ) (journal : UInt64) (endUsn : Int64) (base ids : Nat)
    (s : BatchState σ) :
    Except BrokerError (Response × Bytes) →
      Option (BatchState σ ⊕ Except BrokerError (BatchState σ))
  | .error e => some (.inr (.error e))
  | .ok (response, payload) =>
    match ensureOk response with
    | .error e => some (.inr (.error e))
    | .ok response =>
      if response.journalId ≠ journal ∨ response.nextUsn ≤ s.cursor ∨ endUsn < response.nextUsn then
        some (.inr (.error ⟨.invalidData, "invalid directory recovery cursor", none⟩))
      else (readPayload observe base ids payload s.observed).map (nextPage s response)

def directoryQuery (journal : UInt64) (ids : List FileId) : Bytes :=
  u64Bytes journal ++ ids.flatMap Subtype.val

/-- Only the number and the cursor change between the pages. -/
def directoryRequest (volume : Name) (endUsn : Int64) (requestId : UInt64) (cursor : Int64) : Request :=
  { Request.simple .readDirectoriesChanges requestId with
    volumeGuid := volume
    currentUsn := endUsn
    previousUsn := cursor }

/-- `requestId` gives the numbers of the requests. -/
def batchBody {σ : Type} (transact : Transact) (requestId : Nat → UInt64) (observe : Observe σ)
    (volume : Name) (journal : UInt64) (endUsn : Int64) (base : Nat) (ids : List FileId)
    (s : BatchState σ) : Option (BatchState σ ⊕ Except BrokerError (BatchState σ)) :=
  if ¬s.cursor < endUsn then some (.inr (.ok s))
  else
    takePage observe journal endUsn base ids.length s
      (transact s.requests (directoryRequest volume endUsn (requestId s.requests) s.cursor)
        (directoryQuery journal ids))

def batchIds : Nat := (maxDirectoryQueryBytes - 8) / 16

/-- The batches one after the other, with the index of the first directory of each. -/
def readBatches {σ : Type} (transact : Transact) (requestId : Nat → UInt64) (observe : Observe σ)
    (volume : Name) (journal : UInt64) (startUsn endUsn : Int64) :
    List (List FileId × Nat) → Nat → σ → Option (Except BrokerError σ)
  | [], _, observed => some (.ok observed)
  | (ids, batch) :: batches, requests, observed =>
    (loop (batchBody transact requestId observe volume journal endUsn (batch * batchIds) ids)
      ((endUsn.toInt - startUsn.toInt).toNat + 1) ⟨startUsn, requests, observed⟩).bind fun result =>
      match result with
      | .error e => some (.error e)
      | .ok s =>
        readBatches transact requestId observe volume journal startUsn endUsn batches s.requests
          s.observed

/-- `broker_for_each_directory_change`, once there is a connection. -/
def forEachDirectoryChange {σ : Type} (transact : Transact) (requestId : Nat → UInt64)
    (observe : Observe σ) (volume : Name) (journal : UInt64) (directories : List FileId)
    (startUsn endUsn : Int64) (observed : σ) : Option (Except BrokerError σ) :=
  if directories = [] ∨ startUsn ≤ 0 ∨ endUsn ≤ startUsn then
    some (.error ⟨.invalidInput, "invalid directory recovery query", none⟩)
  else
    readBatches transact requestId observe volume journal startUsn endUsn
      (chunks batchIds directories).zipIdx 0 observed

/-- `broker_read_directories_changes` collects the changes in a set. -/
def collectChange (changes : Finset Change) (index : Nat) (name : Name) :
    Except BrokerError (Finset Change) := .ok (insert (index, name) changes)

def readAllDirectoriesChanges (transact : Transact) (requestId : Nat → UInt64) (volume : Name)
    (journal : UInt64) (directories : List FileId) (startUsn endUsn : Int64) :
    Option (Except BrokerError (Finset Change)) :=
  forEachDirectoryChange transact requestId collectChange volume journal directories startUsn endUsn ∅

end Sunpack.Usn
