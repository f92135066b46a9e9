import Sunpack.Wal.Frame

/-!
# The WAL reader

`Reader` of `wal.rs`. `next` reads one transaction, fragment after fragment; it discards an
incomplete tail by setting `torn`, and fails on anything else that is not a transaction. `forEach`
is the `while let Some(seq) = reader.next()?` loop of the callers.
-/

namespace Sunpack.Wal

open Lib

variable (crc : List UInt8 → UInt32)

structure Reader where
  /-- What was not read yet. -/
  input : List UInt8
  fileEnd : Nat
  validEnd : Nat
  torn : Bool
  payload : List UInt8 := []
deriving DecidableEq, Repr

def readExact (input : List UInt8) (n : Nat) : Except IoError (List UInt8 × List UInt8) :=
  if input.length < n then .error ⟨.unexpectedEof, "failed to fill whole buffer"⟩
  else .ok (input.take n, input.drop n)

theorem readExact_ok {input a b : List UInt8} {n : Nat} (h : readExact input n = .ok (a, b)) :
    n ≤ input.length ∧ a = input.take n ∧ b = input.drop n := by
  unfold readExact at h
  split_ifs at h with hn
  obtain ⟨rfl, rfl⟩ := Prod.mk.inj (Except.ok.inj h)
  exact ⟨by omega, rfl, rfl⟩

@[simp] theorem readExact_append (a b : List UInt8) : readExact (a ++ b) a.length = .ok (a, b) := by
  rw [readExact, if_neg (by simp), List.take_left, List.drop_left]

def Reader.new (file : List UInt8) (kind : Kind) : Except IoError Reader := do
  let available := min file.length FILE_HEADER_BYTES
  let (header, input) ← readExact file available
  if header ≠ (fileHeader kind).take available then
    .error (invalid "unsupported binary WAL header")
  else
    .ok {
      input := input
      fileEnd := file.length
      validEnd := if available = 16 then 16 else 0
      torn := available ≠ 16 }

/-- One turn of the loop of `next`, with what is left to read after it. -/
inductive FragmentRead
  | torn (rest : List UInt8)
  | failed (error : IoError) (rest : List UInt8)
  | fragment (seq : UInt64) (more : Bool) (body rest : List UInt8)
deriving DecidableEq, Repr

/-- `available` is the length of the file from the fragment on, `sequence` that of the fragments
before it. -/
def readFragment (available : Nat) (input : List UInt8) (sequence : Option UInt64) :
    FragmentRead :=
  if available < FRAME_HEADER_BYTES then .torn input
  else match readExact input FRAME_HEADER_BYTES with
    | .error e => .failed e []
    | .ok (header, rest) =>
      let framedLen := UInt32.ofNat (ofLeBytes (header.take 4))
      let len := (framedLen &&& ~~~MORE).toNat
      let seq := UInt64.ofNat (ofLeBytes ((header.drop 4).take 8))
      if len = 0 || len > MAX_FRAME_BYTES || sequence.any (· ≠ seq) then
        .failed (invalid "invalid WAL fragment") rest
      else if available - FRAME_HEADER_BYTES < len then .torn rest
      else match readExact rest len with
        | .error e => .failed e []
        | .ok (body, rest) =>
          if crc (header.take 12 ++ body) ≠ UInt32.ofNat (ofLeBytes (header.drop 12)) then
            .failed (invalid "WAL checksum mismatch") rest
          else .fragment seq (framedLen &&& MORE ≠ 0) body rest

theorem readFragment_length {available : Nat} {input body rest : List UInt8}
    {sequence : Option UInt64} {seq : UInt64} {more : Bool}
    (h : readFragment crc available input sequence = .fragment seq more body rest) :
    rest.length < input.length := by
  unfold readFragment at h
  split_ifs at h
  split at h
  · exact absurd h (by simp)
  rename_i header rest₁ h₁
  dsimp only at h
  split_ifs at h
  split at h
  · exact absurd h (by simp)
  rename_i body' rest₂ h₂
  split_ifs at h
  obtain ⟨_, _, _, rfl⟩ := FragmentRead.fragment.inj h
  obtain ⟨hle, _, rfl⟩ := readExact_ok h₁
  obtain ⟨_, _, rfl⟩ := readExact_ok h₂
  simp only [List.length_drop, FRAME_HEADER_BYTES] at hle ⊢
  omega

/-- The loop of `next` from `cursor` on, with the payload of the fragments before it. -/
def Reader.nextLoop (r : Reader) (cursor : Nat) (payload : List UInt8)
    (sequence : Option UInt64) : Except IoError (Option UInt64) × Reader :=
  match _h : readFragment crc (r.fileEnd - cursor) r.input sequence with
  | .torn rest => (.ok none, { r with input := rest, torn := true })
  | .failed e rest => (.error e, { r with input := rest })
  | .fragment seq more body rest =>
    let cursor := cursor + (FRAME_HEADER_BYTES + body.length)
    if more then { r with input := rest }.nextLoop cursor (payload ++ body) (some seq)
    else (.ok (some seq), { r with
      input := rest
      payload := payload ++ body
      validEnd := cursor })
termination_by r.input.length
decreasing_by exact readFragment_length crc _h

def Reader.next (r : Reader) : Except IoError (Option UInt64) × Reader :=
  let r := { r with payload := [] }
  if r.torn || r.validEnd = r.fileEnd then (.ok none, r)
  else r.nextLoop crc r.validEnd [] none

theorem Reader.nextLoop_length {r r' : Reader} {cursor : Nat} {payload : List UInt8}
    {sequence : Option UInt64} {seq : UInt64}
    (h : r.nextLoop crc cursor payload sequence = (.ok (some seq), r')) :
    r'.input.length < r.input.length := by
  rw [nextLoop] at h
  split at h
  · exact absurd h (by simp)
  · exact absurd h (by simp)
  rename_i seq' more body rest hread
  have hlt := readFragment_length crc hread
  simp only at h
  split_ifs at h
  · exact Nat.lt_trans (nextLoop_length h) hlt
  · simp only [Prod.mk.injEq] at h
    rw [← h.2]
    exact hlt
termination_by r.input.length

theorem Reader.next_length {r r' : Reader} {seq : UInt64}
    (h : r.next crc = (.ok (some seq), r')) : r'.input.length < r.input.length := by
  simp only [next] at h
  split_ifs at h
  · simp at h
  · simpa using Reader.nextLoop_length crc h

/-- Call `next` until it returns `None`, and `body` on every transaction. -/
def Reader.forEach {σ ε : Type*} (diagnose : IoError → ε)
    (body : σ → UInt64 → List UInt8 → Except ε σ) (r : Reader) (s : σ) :
    Except ε (σ × Reader) :=
  match _h : r.next crc with
  | (.error e, _) => .error (diagnose e)
  | (.ok none, r') => .ok (s, r')
  | (.ok (some seq), r') =>
    match body s seq r'.payload with
    | .error e => .error e
    | .ok s' => r'.forEach diagnose body s'
termination_by r.input.length
decreasing_by exact Reader.next_length crc _h

/-- The transactions that repeated calls of `next` return, and the reader after the last call. -/
def Reader.readAll (r : Reader) : Except IoError (List (UInt64 × List UInt8) × Reader) :=
  r.forEach crc id (fun read seq payload => .ok (read ++ [(seq, payload)])) []

end Sunpack.Wal
