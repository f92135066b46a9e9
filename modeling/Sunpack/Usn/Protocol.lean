import Sunpack.Lib.BigEndian
import Sunpack.Lib.Layout
import Sunpack.Lib.Utf8
import Sunpack.Usn.Record

/-!
# Requests and responses

`protocol.rs`: the frames of 112 and 42 bytes that the client and the watch broker exchange. What one
side encodes the other decodes, up to the bytes of a file identity behind its width.
-/

namespace Sunpack.Usn

open Lib

/-- `io::ErrorKind`, as far as the broker and its client tell kinds apart. -/
inductive BrokerErrorKind
  | invalidInput
  | invalidData
  | notFound
  | notConnected
  | brokenPipe
  | other
  deriving DecidableEq

/-- `io::Error`: with a code if it comes from the system. -/
structure BrokerError where
  kind : BrokerErrorKind
  text : String
  rawOsError : Option Nat := none
  deriving DecidableEq

def magic : Nat := ofLeBytes ("SPWB".toList.map fun c => UInt8.ofNat c.toNat)

def maxVolumeGuidBytes : Nat := 64

def requestBytes : Nat := 112

def responseBytes : Nat := 42

def maxDirectoryQueryBytes : Nat := 1024 * 1024

/-! ## Numbers of operations -/

inductive Opcode
  | hello
  | probeVolume
  | readChangeReasons
  | ping
  | release
  | readRootChanges
  | readDirectoriesChanges
  deriving DecidableEq

/-- `opcode as u16`. -/
def Opcode.code : Opcode → Nat
  | hello => 1
  | probeVolume => 2
  | readChangeReasons => 3
  | ping => 4
  | release => 5
  | readRootChanges => 6
  | readDirectoriesChanges => 7

def Opcode.tryFrom : Nat → Except BrokerError Opcode
  | 1 => .ok hello
  | 2 => .ok probeVolume
  | 3 => .ok readChangeReasons
  | 4 => .ok ping
  | 5 => .ok release
  | 6 => .ok readRootChanges
  | 7 => .ok readDirectoriesChanges
  | _ => .error ⟨.invalidInput, "unknown broker opcode", none⟩

inductive Status
  | ok
  | invalidRequest
  | journalUnavailable
  | notFound
  | scanLimit
  | internalError
  | journalReset
  deriving DecidableEq

/-- `status as u16`. -/
def Status.code : Status → Nat
  | ok => 0
  | invalidRequest => 1
  | journalUnavailable => 2
  | notFound => 3
  | scanLimit => 4
  | internalError => 5
  | journalReset => 6

def Status.tryFrom : Nat → Except BrokerError Status
  | 0 => .ok ok
  | 1 => .ok invalidRequest
  | 2 => .ok journalUnavailable
  | 3 => .ok notFound
  | 4 => .ok scanLimit
  | 5 => .ok internalError
  | 6 => .ok journalReset
  | _ => .error ⟨.invalidData, "unknown broker status", none⟩

theorem Opcode.tryFrom_code (opcode : Opcode) : Opcode.tryFrom opcode.code = .ok opcode := by
  cases opcode <;> rfl

theorem Opcode.code_of_tryFrom {n : Nat} {opcode : Opcode} (h : Opcode.tryFrom n = .ok opcode) :
    opcode.code = n := by
  unfold tryFrom at h
  split at h <;> first | cases h; rfl | cases h

theorem Status.code_of_tryFrom {n : Nat} {status : Status} (h : Status.tryFrom n = .ok status) :
    status.code = n := by
  unfold tryFrom at h
  split at h <;> first | cases h; rfl | cases h

theorem Opcode.code_lt (opcode : Opcode) : opcode.code < 256 ^ 2 := by
  cases opcode <;> decide

theorem Status.tryFrom_code (status : Status) : Status.tryFrom status.code = .ok status := by
  cases status <;> rfl

theorem Status.code_lt (status : Status) : status.code < 256 ^ 2 := by
  cases status <;> decide

/-! ## Frames -/

/-- `[u8; FILE_ID_BYTES]`. -/
abbrev FileId := {bytes : Bytes // bytes.length = fileIdBytes}

def FileId.zero : FileId := ⟨List.replicate fileIdBytes 0, List.length_replicate⟩

structure Request where
  opcode : Opcode
  requestId : UInt64
  previousUsn : Int64
  currentUsn : Int64
  fileId : FileId
  fileIdLen : UInt8
  volumeGuid : Name
  deriving DecidableEq

def Request.simple (opcode : Opcode) (requestId : UInt64) : Request :=
  ⟨opcode, requestId, 0, 0, .zero, 0, []⟩

structure Response where
  status : Status
  requestId : UInt64
  win32Error : UInt32
  journalId : UInt64
  reasonsAll : UInt32
  reasonsWithoutClose : UInt32
  nextUsn : Int64
  deriving DecidableEq

def Response.okFor (requestId : UInt64) : Response := ⟨.ok, requestId, 0, 0, 0, 0, 0⟩

/-- A slice of `n` bytes that starts with `bytes` and is zero behind them. -/
def padded (n : Nat) (bytes : Bytes) : Bytes := bytes ++ List.replicate (n - bytes.length) 0

def u64Bytes (x : UInt64) : Bytes := leBytes 8 x.toNat

def i64Bytes (x : Int64) : Bytes := u64Bytes x.toUInt64

def u32Bytes (x : UInt32) : Bytes := leBytes 4 x.toNat

def u64At (bytes : Bytes) (offset : Nat) : UInt64 := UInt64.ofNat (field bytes offset 8)

def i64At (bytes : Bytes) (offset : Nat) : Int64 := (u64At bytes offset).toInt64

def u32At (bytes : Bytes) (offset : Nat) : UInt32 := UInt32.ofNat (field bytes offset 4)

/-- `matches!(file_id_len, 0 | 8 | 16)`. -/
def isFileIdWidth (len : UInt8) : Prop := len = 0 ∨ len = 8 ∨ len = 16

instance (len : UInt8) : Decidable (isFileIdWidth len) := inferInstanceAs (Decidable (_ ∨ _ ∨ _))

/-- The fields at the offsets 0, 4, 6, 14, 22, 30, 31, 32 and 48. -/
def Request.fields (request : Request) : List Bytes :=
  [leBytes 4 magic, leBytes 2 request.opcode.code, u64Bytes request.requestId,
    i64Bytes request.previousUsn, i64Bytes request.currentUsn, [request.fileIdLen],
    [UInt8.ofNat (toUtf8 request.volumeGuid).length],
    padded fileIdBytes (request.fileId.1.take request.fileIdLen.toNat),
    padded maxVolumeGuidBytes (toUtf8 request.volumeGuid)]

def Request.encode (request : Request) : Except BrokerError Bytes :=
  if maxVolumeGuidBytes < (toUtf8 request.volumeGuid).length then
    .error ⟨.invalidInput, "volume GUID is too long", none⟩
  else if ¬isFileIdWidth request.fileIdLen then
    .error ⟨.invalidInput, "invalid file ID width", none⟩
  else .ok request.fields.flatten

theorem length_idAt {bytes : Bytes} {offset width : Nat} (hwidth : width ≤ fileIdBytes)
    (h : offset + width ≤ bytes.length) : (idAt bytes offset width).length = fileIdBytes := by
  rw [idAt, List.length_append, List.length_take, List.length_drop, List.length_replicate]
  omega

theorem isFileIdWidth.le {len : UInt8} (h : isFileIdWidth len) : len.toNat ≤ fileIdBytes := by
  rcases h with rfl | rfl | rfl <;> decide

def Request.ofFields (bytes : Bytes) (opcode : Opcode) (fileId : FileId) (fileIdLen : UInt8) :
    Option Name → Except BrokerError Request
  | none => .error ⟨.invalidData, "volume GUID is not UTF-8", none⟩
  | some volumeGuid =>
    .ok ⟨opcode, u64At bytes 6, i64At bytes 14, i64At bytes 22, fileId, fileIdLen, volumeGuid⟩

def Request.decode (bytes : Bytes) : Except BrokerError Request :=
  if hlen : bytes.length ≠ requestBytes then
    .error ⟨.invalidData, "invalid broker request length", none⟩
  else if field bytes 0 4 ≠ magic then
    .error ⟨.invalidData, "invalid broker request magic", none⟩
  else (Opcode.tryFrom (field bytes 4 2)).bind fun opcode =>
    let fileIdLen := UInt8.ofNat (field bytes 30 1)
    let volumeLen := field bytes 31 1
    if hfields : ¬isFileIdWidth fileIdLen ∨ maxVolumeGuidBytes < volumeLen then
      .error ⟨.invalidData, "invalid broker request fields", none⟩
    else
      have hid : (idAt bytes 32 fileIdLen.toNat).length = fileIdBytes := by
        have hwidth := isFileIdWidth.le (not_not.1 (not_or.1 hfields).1)
        have hbytes : bytes.length = 112 := not_not.1 hlen
        have h16 : fileIdBytes = 16 := rfl
        exact length_idAt hwidth (by omega)
      Request.ofFields bytes opcode ⟨idAt bytes 32 fileIdLen.toNat, hid⟩ fileIdLen
        (fromUtf8 ((bytes.drop 48).take volumeLen))

/-- The fields at the offsets 0, 4, 6, 14, 18, 26, 30 and 34. -/
def Response.fields (response : Response) : List Bytes :=
  [leBytes 4 magic, leBytes 2 response.status.code, u64Bytes response.requestId,
    u32Bytes response.win32Error, u64Bytes response.journalId, u32Bytes response.reasonsAll,
    u32Bytes response.reasonsWithoutClose, i64Bytes response.nextUsn]

def Response.encode (response : Response) : Bytes := response.fields.flatten

def Response.decode (bytes : Bytes) : Except BrokerError Response :=
  if bytes.length ≠ responseBytes then
    .error ⟨.invalidData, "invalid broker response length", none⟩
  else if field bytes 0 4 ≠ magic then
    .error ⟨.invalidData, "invalid broker response header", none⟩
  else (Status.tryFrom (field bytes 4 2)).map fun status =>
    ⟨status, u64At bytes 6, u32At bytes 14, u64At bytes 18, u32At bytes 26, u32At bytes 30,
      i64At bytes 34⟩

/-! ## Fields are found again -/

@[simp] theorem length_u64Bytes (x : UInt64) : (u64Bytes x).length = 8 := leBytes_length 8 _

@[simp] theorem length_i64Bytes (x : Int64) : (i64Bytes x).length = 8 := leBytes_length 8 _

@[simp] theorem length_u32Bytes (x : UInt32) : (u32Bytes x).length = 4 := leBytes_length 4 _

theorem length_padded {n : Nat} {bytes : Bytes} (h : bytes.length ≤ n) :
    (padded n bytes).length = n := by
  rw [padded, List.length_append, List.length_replicate]
  omega

theorem u64At_eq {bytes : Bytes} {offset : Nat} {x : UInt64}
    (h : (bytes.drop offset).take 8 = u64Bytes x) : u64At bytes offset = x := by
  rw [u64At, field, h, u64Bytes, uint64_ofNat_ofLeBytes]

theorem i64At_eq {bytes : Bytes} {offset : Nat} {x : Int64}
    (h : (bytes.drop offset).take 8 = i64Bytes x) : i64At bytes offset = x := by
  rw [i64At, u64At_eq h, Int64.toInt64_toUInt64]

theorem u32At_eq {bytes : Bytes} {offset : Nat} {x : UInt32}
    (h : (bytes.drop offset).take 4 = u32Bytes x) : u32At bytes offset = x := by
  rw [u32At, field, h, u32Bytes, uint32_ofNat_ofLeBytes]

theorem field_eq {bytes : Bytes} {offset k n : Nat} (hn : n < 256 ^ k)
    (h : (bytes.drop offset).take k = leBytes k n) : field bytes offset k = n := by
  rw [field, h, ofLeBytes_leBytes_of_lt hn]

theorem field_byte {bytes : Bytes} {offset : Nat} {b : UInt8}
    (h : (bytes.drop offset).take 1 = [b]) : field bytes offset 1 = b.toNat := by
  rw [field, h, ofLeBytes, ofLeBytes, Nat.mul_zero, Nat.add_zero]

theorem leBytes_field {bytes : Bytes} {offset k : Nat} (h : offset + k ≤ bytes.length) :
    leBytes k (field bytes offset k) = (bytes.drop offset).take k := by
  have hlength : ((bytes.drop offset).take k).length = k := by
    rw [List.length_take, List.length_drop]
    omega
  have hback := leBytes_ofLeBytes ((bytes.drop offset).take k)
  rwa [hlength] at hback

theorem field_lt {bytes : Bytes} {offset k : Nat} : field bytes offset k < 256 ^ k :=
  (ofLeBytes_lt _).trans_le (Nat.pow_le_pow_right (by norm_num) (List.length_take_le _ _))

theorem u64Bytes_u64At {bytes : Bytes} {offset : Nat} (h : offset + 8 ≤ bytes.length) :
    u64Bytes (u64At bytes offset) = (bytes.drop offset).take 8 := by
  have hlt : field bytes offset 8 < 2 ^ 64 := field_lt
  rw [u64Bytes, u64At, UInt64.toNat_ofNat', Nat.mod_eq_of_lt hlt, leBytes_field h]

theorem i64Bytes_i64At {bytes : Bytes} {offset : Nat} (h : offset + 8 ≤ bytes.length) :
    i64Bytes (i64At bytes offset) = (bytes.drop offset).take 8 := u64Bytes_u64At h

theorem u32Bytes_u32At {bytes : Bytes} {offset : Nat} (h : offset + 4 ≤ bytes.length) :
    u32Bytes (u32At bytes offset) = (bytes.drop offset).take 4 := by
  have hlt : field bytes offset 4 < 2 ^ 32 := field_lt
  rw [u32Bytes, u32At, UInt32.toNat_ofNat', Nat.mod_eq_of_lt hlt, leBytes_field h]

theorem magic_lt : magic < 256 ^ 4 := by decide

/-! ## Responses -/

theorem Response.length_encode (response : Response) : response.encode.length = responseBytes := by
  rw [encode, List.length_flatten]
  simp [fields, responseBytes]

theorem Response.decode_encode (response : Response) :
    Response.decode response.encode = .ok response := by
  have hmagic : field response.encode 0 4 = magic :=
    field_eq magic_lt (slice_flatten 0 rfl rfl (by simp))
  have hstatus : field response.encode 4 2 = response.status.code :=
    field_eq response.status.code_lt (slice_flatten 1 rfl (by simp [fields]) (by simp))
  have hid : u64At response.encode 6 = response.requestId :=
    u64At_eq (slice_flatten 2 rfl (by simp [fields]) (by simp))
  have hwin : u32At response.encode 14 = response.win32Error :=
    u32At_eq (slice_flatten 3 rfl (by simp [fields]) (by simp))
  have hjournal : u64At response.encode 18 = response.journalId :=
    u64At_eq (slice_flatten 4 rfl (by simp [fields]) (by simp))
  have hall : u32At response.encode 26 = response.reasonsAll :=
    u32At_eq (slice_flatten 5 rfl (by simp [fields]) (by simp))
  have hclose : u32At response.encode 30 = response.reasonsWithoutClose :=
    u32At_eq (slice_flatten 6 rfl (by simp [fields]) (by simp))
  have hnext : i64At response.encode 34 = response.nextUsn :=
    i64At_eq (slice_flatten 7 rfl (by simp [fields]) (by simp))
  rw [decode, if_neg (not_not.2 response.length_encode), if_neg (not_not.2 hmagic), hstatus,
    Status.tryFrom_code, hid, hwin, hjournal, hall, hclose, hnext]
  rfl

/-- Only encodings are accepted. -/
theorem Response.encode_of_decode {bytes : Bytes} {response : Response}
    (h : Response.decode bytes = .ok response) : response.encode = bytes := by
  unfold decode at h
  split_ifs at h with hlength hmagic
  have hbytes : bytes.length = 42 := not_not.1 hlength
  cases hstatus : Status.tryFrom (field bytes 4 2) with
  | error e =>
    rw [hstatus] at h
    cases h
  | ok status =>
    rw [hstatus] at h
    cases h
    have hcut := flatten_cut (show [4, 2, 8, 4, 8, 4, 4, 8].sum = bytes.length from hbytes.symm)
    refine Eq.trans ?_ hcut
    unfold encode
    congr 1
    simp only [fields, cut, List.drop_drop, ← not_not.1 hmagic, Status.code_of_tryFrom hstatus]
    rw [leBytes_field (by omega), leBytes_field (by omega), u64Bytes_u64At (by omega),
      u32Bytes_u32At (by omega), u64Bytes_u64At (by omega), u32Bytes_u32At (by omega),
      u32Bytes_u32At (by omega), i64Bytes_i64At (by omega)]
    rfl

/-! ## Requests -/

/-- The bytes of the identity that are sent. -/
def Request.sentId (request : Request) : Bytes :=
  padded fileIdBytes (request.fileId.1.take request.fileIdLen.toNat)

theorem Request.length_sentId {request : Request} (h : isFileIdWidth request.fileIdLen) :
    request.sentId.length = fileIdBytes := by
  apply length_padded
  rw [List.length_take]
  exact le_trans (min_le_left _ _) h.le

/-- The request that arrives: the identity is zero behind its width. -/
def Request.arriving (request : Request) (h : isFileIdWidth request.fileIdLen) : Request :=
  { request with fileId := ⟨request.sentId, length_sentId h⟩ }

theorem Request.encode_eq_ok {request : Request} {bytes : Bytes} :
    request.encode = .ok bytes ↔ (toUtf8 request.volumeGuid).length ≤ maxVolumeGuidBytes ∧
      isFileIdWidth request.fileIdLen ∧ bytes = request.fields.flatten := by
  unfold encode
  split_ifs with hvolume hwidth
  · constructor
    · intro h
      cases h
    · rintro ⟨hle, _⟩
      omega
  · constructor
    · intro h
      exact ⟨by omega, hwidth, (Except.ok.inj h).symm⟩
    · rintro ⟨_, _, rfl⟩
      rfl
  · constructor
    · intro h
      cases h
    · rintro ⟨_, hid, _⟩
      exact absurd hid hwidth

theorem Request.length_encode {request : Request} {bytes : Bytes} (h : request.encode = .ok bytes) :
    bytes.length = requestBytes := by
  obtain ⟨hvolume, hwidth, rfl⟩ := encode_eq_ok.1 h
  have hid : (padded fileIdBytes (request.fileId.1.take request.fileIdLen.toNat)).length = 16 :=
    length_sentId hwidth
  have hname : (padded maxVolumeGuidBytes (toUtf8 request.volumeGuid)).length = 64 :=
    length_padded hvolume
  rw [List.length_flatten]
  simp only [fields, List.map_cons, List.map_nil, List.sum_cons, List.sum_nil, leBytes_length,
    length_u64Bytes, length_i64Bytes, List.length_cons, List.length_nil, hid, hname]
  rfl

theorem idAt_eq {bytes id : Bytes} {offset width : Nat} (hid : id.length ≤ width)
    (hwidth : width ≤ fileIdBytes)
    (h : (bytes.drop offset).take fileIdBytes = padded fileIdBytes id) :
    idAt bytes offset width = padded fileIdBytes id := by
  have htake : (bytes.drop offset).take width = padded width id := by
    rw [← min_eq_left hwidth, ← List.take_take, h, padded, padded, List.take_append,
      List.take_of_length_le hid, List.take_replicate]
    congr 2
    omega
  rw [idAt, htake, padded, padded, List.append_assoc, List.replicate_append_replicate]
  congr 2
  omega

theorem Request.decode_encode {request : Request} {bytes : Bytes} (h : request.encode = .ok bytes) :
    ∃ hwidth, Request.decode bytes = .ok (request.arriving hwidth) := by
  have hlength := length_encode h
  obtain ⟨hvolume, hwidth, hbytes⟩ := encode_eq_ok.1 h
  have hmax : maxVolumeGuidBytes = 64 := rfl
  have hmagic : field bytes 0 4 = magic := by
    rw [hbytes]
    exact field_eq magic_lt (slice_flatten 0 rfl rfl (by simp))
  have hopcode : field bytes 4 2 = request.opcode.code := by
    rw [hbytes]
    exact field_eq request.opcode.code_lt (slice_flatten 1 rfl (by simp [fields]) (by simp))
  have hrequestId : u64At bytes 6 = request.requestId := by
    rw [hbytes]
    exact u64At_eq (slice_flatten 2 rfl (by simp [fields]) (by simp))
  have hprevious : i64At bytes 14 = request.previousUsn := by
    rw [hbytes]
    exact i64At_eq (slice_flatten 3 rfl (by simp [fields]) (by simp))
  have hcurrent : i64At bytes 22 = request.currentUsn := by
    rw [hbytes]
    exact i64At_eq (slice_flatten 4 rfl (by simp [fields]) (by simp))
  have hidLen : UInt8.ofNat (field bytes 30 1) = request.fileIdLen := by
    rw [hbytes, field_byte (slice_flatten 5 rfl (by simp [fields]) rfl), UInt8.ofNat_toNat]
  have hvolumeLen : field bytes 31 1 = (toUtf8 request.volumeGuid).length := by
    rw [hbytes, field_byte (slice_flatten 6 rfl (by simp [fields]) rfl), UInt8.toNat_ofNat',
      Nat.mod_eq_of_lt (by omega)]
  have hid : idAt bytes 32 request.fileIdLen.toNat = request.sentId := by
    rw [hbytes]
    refine idAt_eq (List.length_take_le _ _) hwidth.le ?_
    exact slice_flatten 7 rfl (by simp [fields]) (length_sentId hwidth)
  have hname : (bytes.drop 48).take (toUtf8 request.volumeGuid).length =
      toUtf8 request.volumeGuid := by
    have hsent : (padded fileIdBytes (request.fileId.1.take request.fileIdLen.toNat)).length = 16 :=
      length_sentId hwidth
    rw [hbytes, drop_flatten 8 (by simp [fields, hsent])]
    simp [fields, padded]
  refine ⟨hwidth, ?_⟩
  unfold decode
  rw [dif_neg (not_not.2 hlength), if_neg (not_not.2 hmagic), hopcode, Opcode.tryFrom_code]
  simp only [Except.bind]
  rw [dif_neg (by rw [hidLen, hvolumeLen]; exact not_or.2 ⟨not_not.2 hwidth, by omega⟩)]
  simp only [hidLen, hvolumeLen, hid, hname, fromUtf8_toUtf8, ofFields, hrequestId, hprevious,
    hcurrent]
  rfl

/-- Behind its width the identity is zero. -/
def Request.canonical (request : Request) : Prop :=
  request.fileId.1.drop request.fileIdLen.toNat =
    List.replicate (fileIdBytes - request.fileIdLen.toNat) 0

theorem Request.sentId_eq_iff {request : Request} (h : isFileIdWidth request.fileIdLen) :
    request.sentId = request.fileId.1 ↔ request.canonical := by
  have hlength : (request.fileId.1.take request.fileIdLen.toNat).length =
      request.fileIdLen.toNat := by
    rw [List.length_take, request.fileId.2, min_eq_left h.le]
  rw [sentId, padded, hlength, canonical]
  nth_rewrite 2 [← List.take_append_drop request.fileIdLen.toNat request.fileId.1]
  rw [List.append_cancel_left_eq]
  exact eq_comm

theorem Request.arriving_eq_iff {request : Request} (h : isFileIdWidth request.fileIdLen) :
    request.arriving h = request ↔ request.canonical := by
  rw [← sentId_eq_iff h]
  constructor
  · intro heq
    exact congrArg (fun r : Request => r.fileId.1) heq
  · intro heq
    unfold arriving
    simp only [heq]

/-- What is accepted has valid fields. -/
theorem Request.of_decode {bytes : Bytes} {request : Request}
    (h : Request.decode bytes = .ok request) :
    (toUtf8 request.volumeGuid).length ≤ maxVolumeGuidBytes ∧ isFileIdWidth request.fileIdLen ∧
      request.canonical := by
  unfold decode at h
  split_ifs at h with hlength hmagic
  cases hopcode : Opcode.tryFrom (field bytes 4 2) with
  | error e =>
    rw [hopcode] at h
    cases h
  | ok opcode =>
    rw [hopcode] at h
    simp only [Except.bind] at h
    split_ifs at h with hfields
    have hbytes : bytes.length = 112 := not_not.1 hlength
    have hwidth := not_not.1 (not_or.1 hfields).1
    have hvolume := not_lt.1 (not_or.1 hfields).2
    cases hname : fromUtf8 ((bytes.drop 48).take (field bytes 31 1)) with
    | none =>
      rw [hname] at h
      cases h
    | some name =>
      rw [hname] at h
      cases h
      refine ⟨?_, hwidth, ?_⟩
      · rw [toUtf8_of_fromUtf8 hname]
        exact (List.length_take_le _ _).trans hvolume
      · have hle := hwidth.le
        have h16 : fileIdBytes = 16 := rfl
        rw [canonical]
        have hid : ((bytes.drop 32).take (UInt8.ofNat (field bytes 30 1)).toNat).length =
            (UInt8.ofNat (field bytes 30 1)).toNat := by
          rw [List.length_take, List.length_drop]
          omega
        exact List.drop_left' hid

/-- Requests survive the wire exactly if they are canonical, accepted frames are those of canonical
requests, and responses survive as they are. -/
theorem frames_faithful :
    (∀ request : Request, ∀ bytes, request.encode = .ok bytes →
      bytes.length = requestBytes ∧ (Request.decode bytes = .ok request ↔ request.canonical)) ∧
    (∀ bytes request, Request.decode bytes = .ok request →
      ∃ sent, request.encode = .ok sent ∧ Request.decode sent = .ok request) ∧
    (∀ bytes response, Response.decode bytes = .ok response ↔ bytes = response.encode) := by
  refine ⟨?_, ?_, ?_⟩
  · intro request bytes h
    obtain ⟨hwidth, hdecode⟩ := Request.decode_encode h
    refine ⟨Request.length_encode h, ?_⟩
    rw [hdecode, Except.ok.injEq, Request.arriving_eq_iff]
  · intro bytes request h
    obtain ⟨hvolume, hwidth, hcanonical⟩ := Request.of_decode h
    have hsent : request.encode = .ok request.fields.flatten :=
      Request.encode_eq_ok.2 ⟨hvolume, hwidth, rfl⟩
    obtain ⟨hwidth', hdecode⟩ := Request.decode_encode hsent
    refine ⟨_, hsent, ?_⟩
    rw [hdecode, (Request.arriving_eq_iff hwidth').2 hcanonical]
  · intro bytes response
    constructor
    · intro h
      exact (Response.encode_of_decode h).symm
    · rintro rfl
      exact response.decode_encode

end Sunpack.Usn
