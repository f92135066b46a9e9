import Sunpack.ArchiveState.SegmentReader
import Sunpack.Lib.LittleEndian

/-!
# Verifying a ZIP member

`ZipPayloadVerifier`: the local header of a member is read through the logical input, the payload is
decrypted and checked. Release builds wrap on overflow; every addition of addresses is recorded, so
that the wraps can be spoken of. The checksum and the inflater are those of other packages.
-/

namespace Sunpack.ArchiveState

open Lib

inductive PayloadCheck
  | valid
  | corrupt
  | wrongPassword
deriving DecidableEq, Repr

/-! ## ZipCrypto -/

structure ZipCryptoState where
  key0 : UInt32
  key1 : UInt32
  key2 : UInt32
deriving DecidableEq, Repr

/-- One step of the table of `crc32_update`. -/
def crc32Shift (value : UInt32) : UInt32 :=
  if value &&& 1 ≠ 0 then (value >>> 1) ^^^ 0xedb88320 else value >>> 1

/-- An entry of the table: eight steps. -/
def crc32Entry (index : UInt32) : UInt32 := (List.range 8).foldl (fun v _ => crc32Shift v) index

def crc32Update (crc : UInt32) (byte : UInt8) : UInt32 :=
  crc32Entry ((crc ^^^ byte.toUInt32) &&& 0xff) ^^^ (crc >>> 8)

namespace ZipCryptoState

def new : ZipCryptoState := ⟨0x12345678, 0x23456789, 0x34567890⟩

def updateKeys (s : ZipCryptoState) (byte : UInt8) : ZipCryptoState :=
  let key0 := crc32Update s.key0 byte
  let key1 := (s.key1 + (key0 &&& 0xff)) * 134775813 + 1
  ⟨key0, key1, crc32Update s.key2 (key1 >>> 24).toUInt8⟩

def decryptByte (s : ZipCryptoState) : UInt8 :=
  let temp := (s.key2 ||| 2).toUInt16
  ((temp * (temp ^^^ 1)) >>> 8).toUInt8

/-- One byte of `decrypt`, and of the encryption header. -/
def next (s : ZipCryptoState) (encrypted : UInt8) : UInt8 × ZipCryptoState :=
  (encrypted ^^^ s.decryptByte, s.updateKeys (encrypted ^^^ s.decryptByte))

def decrypt (s : ZipCryptoState) : List UInt8 → List UInt8 × ZipCryptoState
  | [] => ([], s)
  | b :: bs => ((s.next b).1 :: ((s.next b).2.decrypt bs).1, ((s.next b).2.decrypt bs).2)

/-- `ZipCryptoDecryptor::new`: nothing if the check byte rejects the password. -/
def openWith (password header : List UInt8) (expected : UInt8) : Option ZipCryptoState :=
  let plain := (password.foldl updateKeys new).decrypt header
  if plain.1.getLastD 0 = expected then some plain.2 else none

end ZipCryptoState

/-! ## What other packages do -/

/-- A call of the inflater: the bytes consumed, those produced, and whether the stream ended. -/
structure Inflated (σ : Type) where
  state : σ
  consumed : Nat
  produced : List UInt8
  streamEnd : Bool

/-- `crc32fast` and the raw inflater of `flate2`, which fails on a broken stream. -/
structure Codecs (σ : Type) where
  crc32 : List UInt8 → UInt32
  decompressor : σ
  decompress : σ → List UInt8 → Option (Inflated σ)

/-! ## The verifier -/

/-- The sums of addresses made on the way, and the answer; there is none while the inflater runs. -/
structure Verdict (α : Type) where
  sums : List (Nat × Nat)
  answer : Option (Except ReadError α)

/-- A member as the central directory describes it. -/
structure Member where
  localOffset : UInt64
  method : Nat
  expectedCrc : UInt32
  compressedSize : UInt64
  uncompressedSize : UInt64
  password : Option (List UInt8)

def LFH_SIG : List UInt8 := [0x50, 0x4b, 0x03, 0x04]

def COPY_CHUNK_SIZE : Nat := 1024 * 1024

def u16le (data : List UInt8) (offset : Nat) : Nat := ofLeBytes ((data.drop offset).take 2)

def u32le (data : List UInt8) (offset : Nat) : Nat := ofLeBytes ((data.drop offset).take 4)

section Verify

variable {σ : Type} (codecs : Codecs σ) (r : SegmentReader)

/-- `read_payload`: a read, decrypted on the fly. -/
def readPayload (offset take : Nat) (decryptor : Option ZipCryptoState) :
    Except ReadError (List UInt8 × Option ZipCryptoState) :=
  (r.readExactAt offset take).map fun bytes =>
    match decryptor with
    | none => (bytes, none)
    | some state => ((state.decrypt bytes).1, some (state.decrypt bytes).2)

/-- The loop over a stored payload: what it feeds to the checksum. -/
def storedLoop (start length fed : Nat) (decryptor : Option ZipCryptoState) :
    Verdict (List UInt8) :=
  if _h : fed < length then
    let take := min (length - fed) COPY_CHUNK_SIZE
    match readPayload r (add64 start fed) take decryptor with
    | .error e => ⟨[(start, fed)], some (.error e)⟩
    | .ok chunk =>
      let rest := storedLoop start length (fed + take) chunk.2
      ⟨(start, fed) :: rest.sums, rest.answer.map (·.map (chunk.1 ++ ·))⟩
  else ⟨[], some (.ok [])⟩
termination_by length - fed
decreasing_by
  simp only [COPY_CHUNK_SIZE]
  omega

/-- What the loop over a deflated payload carries. -/
structure Deflate (σ : Type) where
  state : σ
  fed : Nat
  pending : List UInt8
  decryptor : Option ZipCryptoState
  totalIn : Nat
  output : List UInt8

/-- The head of a round: more input, if there is none pending. -/
def refill (start length : Nat) (d : Deflate σ) : Verdict (Deflate σ) :=
  if d.pending = [] ∧ d.fed < length then
    let take := min (length - d.fed) COPY_CHUNK_SIZE
    ⟨[(start, d.fed)], some ((readPayload r (add64 start d.fed) take d.decryptor).map fun chunk =>
      { d with fed := d.fed + take, pending := chunk.1, decryptor := chunk.2 })⟩
  else ⟨[], some (.ok d)⟩

/-- `verify_deflate`, for so many rounds. -/
def deflateLoop (start length : Nat) (m : Member) : Nat → Deflate σ → Verdict Bool
  | 0, _ => ⟨[], none⟩
  | rounds + 1, d =>
    let filled := refill r start length d
    match filled.answer with
    | none => ⟨filled.sums, none⟩
    | some (.error e) => ⟨filled.sums, some (.error e)⟩
    | some (.ok d) =>
      match codecs.decompress d.state d.pending with
      | none => ⟨filled.sums, some (.ok false)⟩
      | some out =>
        let totalIn := d.totalIn + out.consumed
        let output := d.output ++ out.produced
        if out.streamEnd then
          ⟨filled.sums, some (.ok (totalIn = length && output.length = m.uncompressedSize.toNat &&
            codecs.crc32 output = m.expectedCrc))⟩
        else if out.consumed = 0 ∧ out.produced = [] then ⟨filled.sums, some (.ok false)⟩
        else
          let rest := deflateLoop start length m rounds
            { d with
              state := out.state
              pending := d.pending.drop out.consumed
              totalIn := totalIn
              output := output }
          ⟨filled.sums ++ rest.sums, rest.answer⟩

def PayloadCheck.ofValid (valid : Bool) : PayloadCheck := if valid then .valid else .corrupt

/-- The checks of the payload, by method. -/
def verifyMethod (m : Member) (rounds start length : Nat) (decryptor : Option ZipCryptoState) :
    Verdict PayloadCheck :=
  if m.method = 0 then
    if length ≠ m.uncompressedSize.toNat then ⟨[], some (.ok .corrupt)⟩
    else
      let fed := storedLoop r start length 0 decryptor
      ⟨fed.sums, fed.answer.map (·.map fun data => .ofValid (codecs.crc32 data = m.expectedCrc))⟩
  else if m.method = 8 then
    let deflated := deflateLoop codecs r start length m rounds
      ⟨codecs.decompressor, 0, [], decryptor, 0, []⟩
    ⟨deflated.sums, deflated.answer.map (·.map .ofValid)⟩
  else ⟨[], some (.ok .valid)⟩

/-- The byte a password has to give at the end of the encryption header. -/
def checkByte (header : List UInt8) : UInt8 :=
  if u16le header 6 &&& 0x0008 ≠ 0 then UInt8.ofNat (u16le header 10 >>> 8)
  else UInt8.ofNat (u32le header 14 >>> 24)

/-- The encryption header, if there is a password, and the payload behind it. -/
def verifyPayload (m : Member) (rounds : Nat) (header : List UInt8) (start length : Nat) :
    Verdict PayloadCheck :=
  match m.password with
  | none => verifyMethod codecs r m rounds start length none
  | some password =>
    if length < 12 then ⟨[], some (.ok .corrupt)⟩
    else
      match r.readExactAt start 12 with
      | .error e => ⟨[], some (.error e)⟩
      | .ok encryptionHeader =>
        match ZipCryptoState.openWith password encryptionHeader (checkByte header) with
        | none => ⟨[], some (.ok .wrongPassword)⟩
        | some state =>
          let rest := verifyMethod codecs r m rounds (add64 start 12) (length - 12) (some state)
          ⟨(start, 12) :: rest.sums, rest.answer⟩

/-- `verify`. -/
def verify (m : Member) (rounds : Nat) : Verdict PayloadCheck :=
  let lo := m.localOffset.toNat
  let bound := (lo, 30)
  if add64 lo 30 > r.total then ⟨[bound], some (.ok .corrupt)⟩
  else
    match r.readExactAt lo 30 with
    | .error e => ⟨[bound], some (.error e)⟩
    | .ok header =>
      if header.take 4 ≠ LFH_SIG then ⟨[bound], some (.ok .corrupt)⟩
      else
        let behindHeader := add64 lo 30
        let behindName := add64 behindHeader (u16le header 26)
        let dataStart := add64 behindName (u16le header 28)
        let sums := [bound, (lo, 30), (behindHeader, u16le header 26),
          (behindName, u16le header 28)]
        if sat64 dataStart m.compressedSize.toNat > r.total then ⟨sums, some (.ok .corrupt)⟩
        else
          let rest := verifyPayload codecs r m rounds header dataStart m.compressedSize.toNat
          ⟨sums ++ rest.sums, rest.answer⟩

end Verify

end Sunpack.ArchiveState
