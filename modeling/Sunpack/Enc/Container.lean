import Sunpack.Enc.Stream

/-!
# Containers

`lib.rs`: the header, the quick proof of a password and the recovery framing at the end of a file. The
key derivation and the hashes are arbitrary functions. A call that would read outside of a buffer has
no result; one that fails has an error as its result.
-/

namespace Sunpack.Enc

open Lib

inductive Error
  | format
  | truncated
  | password
  | authentication
  | framing
  | io
  | memory
  | cancelled
  deriving DecidableEq

/-- The offsets of the source are words of 64 bits. -/
structure File where
  bytes : Bytes
  length_lt : bytes.length < 2 ^ 64

/-- `seek` and `read_exact`. -/
def File.readAt (input : File) (pos n : Nat) : Except Error Bytes :=
  if pos + n ≤ input.bytes.length then .ok ((input.bytes.drop pos).take n) else .error .truncated

def headerMagic : Bytes := [0x53, 0x53, 0x45, 0x46, 0x45, 0x04]

def prefixSize : Nat := 40

def checkSize : Nat := 32

def macSize : Nat := 32

/-! ## Headers and keys -/

def codeOf (bytes : Bytes) : Nat := (bytes.getD 6 0).toNat

structure Header where
  bytes : Bytes
  length_eq : bytes.length = prefixSize
  code_le : codeOf bytes ≤ 9

def Header.code (h : Header) : Nat := codeOf h.bytes

theorem codeOf_take (bytes : Bytes) : codeOf (bytes.take prefixSize) = codeOf bytes := by
  rw [codeOf, List.getD_eq_getElem?_getD, List.getElem?_take_of_lt (by decide),
    ← List.getD_eq_getElem?_getD, codeOf]

def Header.parse (bytes : Bytes) (length : Nat) : Except Error Header :=
  if hlen : bytes.length < prefixSize ∨ length < prefixSize + checkSize + macSize then .error .truncated
  else if hcode : ¬headerMagic <+: bytes ∨ 9 < codeOf bytes then .error .format
  else .ok
    { bytes := bytes.take prefixSize
      length_eq := by
        rw [List.length_take]
        omega
      code_le := by
        rw [codeOf_take]
        omega }

/-- Length of the key and of the nonce. -/
def dimensions : Nat → Nat × Nat
  | 3 => (32, 8)
  | 5 => (32, 8)
  | 6 => (56, 8)
  | 7 => (128, 128)
  | 8 => (64, 32)
  | 9 => (256, 192)
  | _ => (32, 16)

structure Keys (code : Nat) where
  key : Bytes
  nonce : Bytes
  auth : Bytes
  key_length : key.length = (dimensions code).1
  nonce_length : nonce.length = (dimensions code).2

theorem Ctr.exists_new (P : Primitives) {code : Nat} (key : Bytes) {nonce : Bytes}
    (h : blockSize code = some nonce.length) : ∃ c, Ctr.new P code key nonce = some c := by
  rw [Ctr.new, h, Option.bind_eq_bind, Option.bind_some, if_pos rfl]
  exact ⟨_, rfl⟩

theorem exists_cascadeStages (P : Primitives) {key nonce : Bytes} {specs : List (Nat × Nat × Nat)}
    (hsize : ∀ spec ∈ specs, blockSize spec.1 = some spec.2.2) {k n : Nat}
    (hkey : k + (specs.map fun spec => spec.2.1).sum ≤ key.length)
    (hnonce : n + (specs.map fun spec => spec.2.2).sum ≤ nonce.length) :
    ∃ stages, cascadeStages P key nonce specs k n = some stages := by
  induction specs generalizing k n with
  | nil => exact ⟨[], rfl⟩
  | cons spec specs ih =>
    rw [List.map_cons, List.sum_cons] at hkey hnonce
    have hblock : blockSize spec.1 = some ((nonce.drop n).take (n + spec.2.2 - n)).length := by
      rw [hsize spec List.mem_cons_self, List.length_take, List.length_drop]
      congr 1
      omega
    obtain ⟨stage, hnew⟩ := Ctr.exists_new P ((key.drop k).take (k + spec.2.1 - k)) hblock
    obtain ⟨stages, hstages⟩ := ih (fun s hs => hsize s (List.mem_cons_of_mem _ hs))
      (k := k + spec.2.1) (n := n + spec.2.2) (by omega) (by omega)
    refine ⟨stage :: stages, ?_⟩
    rw [cascadeStages, slice_eq (Nat.le_add_right k spec.2.1) (by omega),
      slice_eq (Nat.le_add_right n spec.2.2) (by omega)]
    simp only [Option.bind_eq_bind, Option.bind_some, hnew, hstages]

/-- Keys and nonces have the lengths that the cipher wants. -/
theorem Keys.exists_stream {code : Nat} (keys : Keys code) (P : Primitives) (hcode : code ≤ 9) :
    ∃ s, Stream.new P code keys.key keys.nonce = some s := by
  obtain ⟨key, nonce, auth, hkey, hnonce⟩ := keys
  dsimp only
  rw [Stream.new]
  by_cases hcascade : code ≠ 9
  · have hsize : blockSize code = some nonce.length := by
      rw [hnonce]
      interval_cases code <;> first | rfl | exact absurd rfl hcascade
    obtain ⟨stage, hstage⟩ := Ctr.exists_new P key hsize
    rw [if_pos hcascade, hstage]
    exact ⟨⟨[stage]⟩, rfl⟩
  · obtain rfl := not_not.1 hcascade
    have hkeys : (cascade.map fun spec => spec.2.1).sum = (dimensions 9).1 := rfl
    have hnonces : (cascade.map fun spec => spec.2.2).sum = (dimensions 9).2 := rfl
    have hfits : 0 + (cascade.map fun spec => spec.2.1).sum ≤ key.length := by omega
    have hfits' : 0 + (cascade.map fun spec => spec.2.2).sum ≤ nonce.length := by omega
    obtain ⟨stages, hstages⟩ := exists_cascadeStages P (by decide) hfits hfits'
    rw [if_neg hcascade, hstages]
    exact ⟨⟨stages⟩, rfl⟩

structure Crypto where
  primitives : Primitives
  derive : (header : Header) → List UInt16 → Except Error (Keys header.code)
  blake3 : Bytes → Bytes → Bytes
  crc32 : Bytes → Nat

/-! ## Recovery framing -/

def recoveryMagic : Bytes := [0x50, 0x46, 0x54, 0x45, 0x52, 0x45, 0x43, 0x31]

def le (trailer : Bytes) (o : Nat) : Nat := ofLeBytes ((trailer.drop o).take 8)

def part (bytes : Bytes) (a b : Nat) : Bytes := (bytes.drop a).take (b - a)

/-- The trailer does not describe a container that ends at `stop`. -/
def badTrailer (c : Crypto) (trailer : Bytes) (stop : Nat) : Prop :=
  le trailer 16 < 152 ∨
    ¬(le trailer 16 ≤ stop ∧ stop - le trailer 16 = le trailer 24) ∨
    le trailer 24 < prefixSize + checkSize ∨
    part trailer 36 40 ≠ leBytes 4 1 ∨
    part trailer 76 80 ≠ [0, 0, 0, 0] ∨
    c.crc32 (part trailer 0 72) ≠ ofLeBytes (part trailer 72 76) ∨
    le trailer 0 < 64 ∨
    le trailer 8 < le trailer 0 ∨
    le trailer 16 - 88 < le trailer 8

instance (c : Crypto) (trailer : Bytes) (stop : Nat) : Decidable (badTrailer c trailer stop) := by
  unfold badTrailer
  infer_instance

def badHead (c : Crypto) (head : Bytes) : Prop :=
  part head 0 8 ≠ recoveryMagic ∨
    head.getD 8 0 ≠ 1 ∨
    head.getD 9 0 ≠ 1 ∨
    ¬(1 ≤ (head.getD 10 0).toNat ∧ (head.getD 10 0).toNat ≤ 50) ∨
    head.getD 11 0 ≠ 0 ∨
    c.crc32 (part head 0 60) ≠ ofLeBytes (part head 60 64)

instance (c : Crypto) (head : Bytes) : Decidable (badHead c head) := by
  unfold badHead
  infer_instance

/-- Where the encrypted bytes end. -/
def payloadEnd (c : Crypto) (input : File) (length : Nat) : Except Error Nat :=
  if length < macSize then .error .truncated
  else if length - macSize < prefixSize + checkSize then .error .truncated
  else do
    let magic ← input.readAt (length - macSize - 8) 8
    if magic ≠ recoveryMagic then .ok (length - macSize)
    else if length - macSize < 88 then .error .truncated
    else do
      let trailer ← input.readAt (length - macSize - 88) 88
      if badTrailer c trailer (length - macSize) then .error .framing
      else do
        let head ← input.readAt (le trailer 24) 64
        if badHead c head then .error .framing else .ok (le trailer 24)

theorem exists_of_bind_eq_ok {α β : Type} {program : Except Error α} {f : α → Except Error β} {b : β}
    (h : program >>= f = .ok b) : ∃ a, program = .ok a ∧ f a = .ok b := by
  cases hprogram : program with
  | error e =>
    rw [hprogram] at h
    exact absurd h (by simp [bind, Except.bind])
  | ok a =>
    rw [hprogram] at h
    exact ⟨a, rfl, h⟩

theorem payloadEnd_bounds {c : Crypto} {input : File} {length stop : Nat}
    (h : payloadEnd c input length = .ok stop) :
    prefixSize + checkSize ≤ stop ∧ stop ≤ length - macSize ∧ macSize ≤ length := by
  unfold payloadEnd at h
  by_cases hmac : length < macSize
  · rw [if_pos hmac] at h
    cases h
  rw [if_neg hmac] at h
  by_cases hshort : length - macSize < prefixSize + checkSize
  · rw [if_pos hshort] at h
    cases h
  rw [if_neg hshort] at h
  obtain ⟨magic, _, h⟩ := exists_of_bind_eq_ok h
  by_cases hplain : magic ≠ recoveryMagic
  · rw [if_pos hplain] at h
    obtain rfl := Except.ok.inj h
    omega
  rw [if_neg hplain] at h
  by_cases hsmall : length - macSize < 88
  · rw [if_pos hsmall] at h
    cases h
  rw [if_neg hsmall] at h
  obtain ⟨trailer, _, h⟩ := exists_of_bind_eq_ok h
  by_cases hbad : badTrailer c trailer (length - macSize)
  · rw [if_pos hbad] at h
    cases h
  rw [if_neg hbad] at h
  obtain ⟨head, _, h⟩ := exists_of_bind_eq_ok h
  by_cases hhead : badHead c head
  · rw [if_pos hhead] at h
    cases h
  rw [if_neg hhead] at h
  obtain rfl := Except.ok.inj h
  simp only [badTrailer, not_or, not_not, not_lt] at hbad
  omega

/-! ## Opening -/

structure Decoder where
  header : Header
  keys : Keys header.code
  packed : Nat
  encryptedEnd : Nat
  framingError : Option Error

namespace Decoder

def isProofByte (b : UInt8) : Bool := (97 ≤ b && b ≤ 122) || (48 ≤ b && b ≤ 57)

/-- The quick proof: the check bytes decrypt to lower-case letters and digits. -/
def proves (c : Crypto) (header : Header) (keys : Keys header.code) (quick : Bytes) : Option Bool := do
  let stream ← Stream.new c.primitives header.code keys.key keys.nonce
  let result ← stream.apply quick
  some (result.2.all isProofByte)

def finishOpen (c : Crypto) (input : File) (length : Nat) (header : Header)
    (keys : Keys header.code) : Except Error Decoder :=
  match payloadEnd c input length with
  | .ok stop => .ok ⟨header, keys, length, stop, none⟩
  | .error .framing => .ok ⟨header, keys, length, length - macSize, some .framing⟩
  | .error .truncated => .ok ⟨header, keys, length, length - macSize, some .truncated⟩
  | .error e => .error e

def openInput (c : Crypto) (input : File) (length : Nat) (password : List UInt16) :
    Option (Except Error Decoder) :=
  match input.readAt 0 (prefixSize + checkSize) with
  | .error e => some (.error e)
  | .ok bytes =>
    match Header.parse bytes length with
    | .error e => some (.error e)
    | .ok header =>
      match c.derive header password with
      | .error e => some (.error e)
      | .ok keys => do
        let proven ← proves c header keys (part bytes prefixSize (prefixSize + checkSize))
        some (if proven then finishOpen c input length header keys else .error .password)

def outputSize (d : Decoder) : Nat :=
  if d.framingError.isSome then 0 else d.encryptedEnd - prefixSize - checkSize

end Decoder

end Sunpack.Enc
