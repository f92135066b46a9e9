import Sunpack.Wal.Reader

/-!
# Snapshot files

`write_snapshot` and `read_snapshot` of `wal.rs`: a file header, 24 bytes with the sequence number, the
length and the CRC of the payload, and the payload. What was written reads back.
-/

namespace Sunpack.Wal

open Lib

variable (crc : List UInt8 → UInt32)

/-- The sequence number and the length of the payload: the part of the header that the CRC covers,
after the payload. -/
def snapshotStart (seq : UInt64) (len : Nat) : List UInt8 := leBytes 8 seq.toNat ++ leBytes 8 len

def snapshotHeader (seq : UInt64) (payload : List UInt8) : List UInt8 :=
  snapshotStart seq payload.length ++
    leBytes 4 (crc (payload ++ snapshotStart seq payload.length)).toNat ++ List.replicate 4 0

/-- The header is written over the zeros in front of the payload. -/
def writeSnapshot (kind : Kind) (seq : UInt64) (payload : List UInt8) : List UInt8 :=
  let file := fileHeader kind ++ List.replicate 24 0 ++ payload
  file.take 16 ++ snapshotHeader crc seq payload ++ file.drop 40

/-- `decode` reads the value of the payload, and refuses bytes after it. -/
def readSnapshot {α : Type} (decode : List UInt8 → Except IoError α) (file : List UInt8)
    (kind : Kind) : Except IoError (UInt64 × α) :=
  (readExact file 16).bind fun head =>
    if head.1 ≠ fileHeader kind then .error (invalid "unsupported binary snapshot header")
    else (readExact head.2 24).bind fun header =>
      let seq := UInt64.ofNat (ofLeBytes (header.1.take 8))
      let len := ofLeBytes ((header.1.drop 8).take 8)
      if file.length - 40 ≠ len ∨ header.1.drop 20 ≠ List.replicate 4 0 then
        .error (invalid "invalid snapshot length")
      else
        let payload := header.2.take len
        (decode payload).bind fun value =>
          if crc (payload ++ header.1.take 16) ≠
              UInt32.ofNat (ofLeBytes ((header.1.drop 16).take 4)) then
            .error (invalid "snapshot checksum mismatch")
          else .ok (seq, value)

@[simp] theorem snapshotStart_length (seq : UInt64) (len : Nat) :
    (snapshotStart seq len).length = 16 := by
  simp [snapshotStart]

@[simp] theorem snapshotHeader_length (seq : UInt64) (payload : List UInt8) :
    (snapshotHeader crc seq payload).length = 24 := by
  simp [snapshotHeader]

theorem writeSnapshot_eq (kind : Kind) (seq : UInt64) (payload : List UInt8) :
    writeSnapshot crc kind seq payload =
      fileHeader kind ++ (snapshotHeader crc seq payload ++ payload) := by
  have hfile : fileHeader kind ++ List.replicate 24 0 ++ payload =
      fileHeader kind ++ (List.replicate 24 0 ++ payload) := List.append_assoc _ _ _
  have hdrop : (fileHeader kind ++ List.replicate 24 0 ++ payload).drop 40 = payload :=
    List.drop_left' (by simp)
  unfold writeSnapshot
  dsimp only
  rw [hdrop, hfile, List.take_left' (fileHeader_length kind), List.append_assoc]

theorem writeSnapshot_length (kind : Kind) (seq : UInt64) (payload : List UInt8) :
    (writeSnapshot crc kind seq payload).length = 40 + payload.length := by
  rw [writeSnapshot_eq]
  simp only [List.length_append, fileHeader_length, snapshotHeader_length]
  omega

theorem readSnapshot_writeSnapshot {α : Type} {decode : List UInt8 → Except IoError α}
    {payload : List UInt8} {value : α} (hlen : payload.length < 2 ^ 64)
    (hdecode : decode payload = .ok value) (kind : Kind) (seq : UInt64) :
    readSnapshot crc decode (writeSnapshot crc kind seq payload) kind = .ok (seq, value) := by
  have hfile := writeSnapshot_length crc kind seq payload
  generalize hheader : snapshotHeader crc seq payload = header at *
  have hwrite : writeSnapshot crc kind seq payload = fileHeader kind ++ (header ++ payload) := by
    rw [← hheader, writeSnapshot_eq]
  have hstart : header.take 16 = snapshotStart seq payload.length := by
    rw [← hheader, snapshotHeader, List.append_assoc]
    exact List.take_left' (snapshotStart_length _ _)
  have hseq : header.take 8 = leBytes 8 seq.toNat := by
    rw [← hheader, snapshotHeader, List.append_assoc, snapshotStart, List.append_assoc]
    exact List.take_left' (leBytes_length 8 _)
  have hlength : (header.drop 8).take 8 = leBytes 8 payload.length := by
    rw [← hheader, snapshotHeader, List.append_assoc, snapshotStart, List.append_assoc,
      List.drop_left' (leBytes_length 8 _)]
    exact List.take_left' (leBytes_length 8 _)
  have hsum : (header.drop 16).take 4 =
      leBytes 4 (crc (payload ++ snapshotStart seq payload.length)).toNat := by
    rw [← hheader, snapshotHeader, List.append_assoc, List.drop_left' (snapshotStart_length _ _)]
    exact List.take_left' (leBytes_length 4 _)
  have hzero : header.drop 20 = List.replicate 4 0 := by
    rw [← hheader, snapshotHeader]
    exact List.drop_left' (by simp)
  have hhead : readExact (fileHeader kind ++ (header ++ payload)) 16 =
      .ok (fileHeader kind, header ++ payload) := by
    rw [← fileHeader_length kind, readExact_append]
  have hnext : readExact (header ++ payload) 24 = .ok (header, payload) := by
    have hheaderLength : header.length = 24 := by rw [← hheader, snapshotHeader_length]
    rw [← hheaderLength, readExact_append]
  have hof : ofLeBytes (leBytes 8 payload.length) = payload.length :=
    ofLeBytes_leBytes_of_lt (by omega)
  unfold readSnapshot
  simp only [hfile]
  rw [hwrite]
  simp only [hhead, hnext, Except.bind, ne_eq, not_true_eq_false, if_false, hlength, hof,
    hzero, hstart, hsum, hseq, uint32_ofNat_ofLeBytes, uint64_ofNat_ofLeBytes, List.take_length,
    hdecode]
  rw [Nat.add_sub_cancel_left, if_neg (by simp)]

end Sunpack.Wal
