import Sunpack.Lib.BigEndian
import Sunpack.Lib.Keystream
import Sunpack.Lib.Loop

/-!
# Cipher streams

`cipher.rs`: counter mode over block ciphers with blocks of 8, 16, 32 and 128 bytes, and the cascade
of four of them. The block ciphers are arbitrary functions on blocks. A slice outside of a buffer, an
overflow of an offset and a loop that does not end in time have no result.
-/

namespace Sunpack.Enc

open Lib

abbrev Bytes := List UInt8

/-- `bytes[a..b]`. -/
def slice (bytes : Bytes) (a b : Nat) : Option Bytes :=
  if a ≤ b ∧ b ≤ bytes.length then some ((bytes.drop a).take (b - a)) else none

def divCeil (a b : Nat) : Nat := (a + b - 1) / b

/-- The block size of a cipher code. -/
def blockSize : Nat → Option Nat
  | 0 => some 16
  | 1 => some 16
  | 2 => some 16
  | 3 => some 8
  | 4 => some 16
  | 5 => some 8
  | 6 => some 8
  | 7 => some 128
  | 8 => some 32
  | _ => none

/-- The block functions by code and key. -/
structure Primitives where
  encrypt : Nat → Bytes → Bytes → Bytes
  length : ∀ code key block size, blockSize code = some size → block.length = size →
    (encrypt code key block).length = size

/-! ## Counter mode -/

/-- The counter array of the source is longer; the bytes after the block size are not read. -/
structure CtrState where
  counter : Bytes
  pad : Bytes := List.replicate 2048 0
  used : Nat := 0
  available : Nat := 0

structure Ctr where
  encrypt : Bytes → Bytes
  size : Nat
  initial : Bytes
  state : CtrState

/-- Counter blocks of a counter that is one machine word. -/
def wordBlocks (size : Nat) : Nat → Nat → List Bytes × Nat
  | 0, counter => ([], counter)
  | n + 1, counter =>
    let rest := wordBlocks size n ((counter + 1) % 256 ^ size)
    (beBytes size counter :: rest.1, rest.2)

/-- Counter blocks of a counter that is counted up byte by byte, from the end. -/
def byteBlocks : Nat → Bytes → List Bytes × Bytes
  | 0, counter => ([], counter)
  | n + 1, counter =>
    let rest := byteBlocks n (increment counter.reverse).reverse
    (counter :: rest.1, rest.2)

/-- The next counter blocks, and the counter after them. -/
def counterBlocks (size n : Nat) (counter : Bytes) : List Bytes × Bytes :=
  if size = 8 ∨ size = 16 then
    let blocks := wordBlocks size n (ofBeBytes counter)
    (blocks.1, beBytes size blocks.2)
  else byteBlocks n counter

namespace CtrState

/-- Fills the pad, for at most as many bytes as are wanted. -/
def refill (encrypt : Bytes → Bytes) (size wanted : Nat) (s : CtrState) : CtrState :=
  let n := min (divCeil wanted size) (s.pad.length / size)
  let blocks := counterBlocks size n s.counter
  { counter := blocks.2
    pad := (blocks.1.map encrypt).flatten ++ s.pad.drop (n * size)
    used := 0
    available := n * size }

/-- A turn has the bytes that are left and those that are done. -/
def applyBody (encrypt : Bytes → Bytes) (size : Nat) (t : CtrState × Bytes × Bytes) :
    Option ((CtrState × Bytes × Bytes) ⊕ (CtrState × Bytes)) :=
  if t.2.1 = [] then some (.inr (t.1, t.2.2))
  else do
    let s := if t.1.used = t.1.available then t.1.refill encrypt size t.2.1.length else t.1
    let n := min t.2.1.length (s.available - s.used)
    let part ← slice s.pad s.used (s.used + n)
    some (.inl ({ s with used := s.used + n }, t.2.1.drop n,
      t.2.2 ++ List.zipWith (· ^^^ ·) (t.2.1.take n) part))

def apply (encrypt : Bytes → Bytes) (size : Nat) (s : CtrState) (bytes : Bytes) :
    Option (CtrState × Bytes) :=
  loop (applyBody encrypt size) (bytes.length + 1) (s, bytes, [])

end CtrState

namespace Ctr

def new (P : Primitives) (code : Nat) (key nonce : Bytes) : Option Ctr := do
  let size ← blockSize code
  if nonce.length = size then
    some { encrypt := P.encrypt code key, size := size, initial := nonce, state := { counter := nonce } }
  else none

def apply (c : Ctr) (bytes : Bytes) : Option (Ctr × Bytes) := do
  let result ← c.state.apply c.encrypt c.size bytes
  some ({ c with state := result.1 }, result.2)

def applyAt (c : Ctr) (offset : Nat) (bytes : Bytes) : Option Bytes := do
  let counter := (addCarry c.initial.reverse (offset / c.size)).reverse
  let skip := offset % c.size
  let state : CtrState := { counter := counter }
  let state ←
    if skip ≠ 0 then do
      let zeros ← slice (List.replicate 128 0) 0 skip
      let skipped ← state.apply c.encrypt c.size zeros
      some skipped.1
    else some state
  let result ← state.apply c.encrypt c.size bytes
  some result.2

end Ctr

/-! ## Streams -/

structure Stream where
  stages : List Ctr

/-- The stages of the cascade: code, length of the key and of the nonce. -/
def cascade : List (Nat × Nat × Nat) := [(7, 128, 128), (2, 32, 16), (0, 32, 16), (8, 64, 32)]

def cascadeStages (P : Primitives) (key nonce : Bytes) :
    List (Nat × Nat × Nat) → Nat → Nat → Option (List Ctr)
  | [], _, _ => some []
  | spec :: rest, k, n => do
    let stageKey ← slice key k (k + spec.2.1)
    let stageNonce ← slice nonce n (n + spec.2.2)
    let stage ← Ctr.new P spec.1 stageKey stageNonce
    let stages ← cascadeStages P key nonce rest (k + spec.2.1) (n + spec.2.2)
    some (stage :: stages)

/-- The parts of `par_chunks_mut`. -/
def chunks (size : Nat) : Nat → Bytes → List Bytes
  | 0, _ => []
  | n + 1, bytes => if bytes = [] then [] else bytes.take size :: chunks size n (bytes.drop size)

namespace Stream

def new (P : Primitives) (code : Nat) (key nonce : Bytes) : Option Stream := do
  let stages ←
    if code ≠ 9 then do
      let stage ← Ctr.new P code key nonce
      some [stage]
    else cascadeStages P key nonce cascade 0 0
  some ⟨stages⟩

def applyStages : List Ctr → Bytes → Option (List Ctr × Bytes)
  | [], bytes => some ([], bytes)
  | stage :: stages, bytes => do
    let first ← stage.apply bytes
    let rest ← applyStages stages first.2
    some (first.1 :: rest.1, rest.2)

def apply (s : Stream) (bytes : Bytes) : Option (Stream × Bytes) := do
  let result ← applyStages s.stages bytes
  some (⟨result.1⟩, result.2)

def applyAt (s : Stream) (offset : Nat) (bytes : Bytes) : Option Bytes :=
  s.stages.foldlM (fun bytes stage => stage.applyAt offset bytes) bytes

/-- The parts of `par_chunks_mut` with their offsets; they are disjoint, so their order is free. -/
def applyParts (s : Stream) (offset chunkSize : Nat) : List Bytes → Nat → Option (List Bytes)
  | [], _ => some []
  | part :: parts, index => do
    let done ←
      if offset + index * chunkSize < 2 ^ 64 then s.applyAt (offset + index * chunkSize) part
      else none
    let rest ← s.applyParts offset chunkSize parts (index + 1)
    some (done :: rest)

def applyWithThreads (s : Stream) (offset : Nat) (bytes : Bytes) (threads : Nat) : Option Bytes :=
  if bytes = [] then some []
  else
    let chunkSize := divCeil bytes.length (max threads 1)
    if chunkSize = bytes.length then s.applyAt offset bytes
    else do
      let parts ← s.applyParts offset chunkSize (chunks chunkSize bytes.length bytes) 0
      some parts.flatten

end Stream

end Sunpack.Enc
