import Mathlib
import Sunpack.Lib.Dict
import Sunpack.Lib.Loop
import Sunpack.Lib.Utf8

/-!
# PAX records

`pax` of `tar.rs`: the records of an extended header, each with its length in front, and the last values
of the three keys that matter. A string is the list of its UTF-8 bytes, and a reader any function. Nobody
observes the records, and `advance` has checked that the ends of the payload have 64 bits.
-/

namespace Sunpack.Tar

open Lib

abbrev Bytes := List UInt8

def MAX_METADATA : Nat := 1024 * 1024

inductive ErrorKind
  | invalidData
  | unexpectedEof
  | outOfMemory
  | other
  deriving DecidableEq

structure IoError where
  kind : ErrorKind
  message : String
  deriving DecidableEq

def invalid : IoError := ⟨.invalidData, "invalid PAX extended header"⟩

def truncated : IoError := ⟨.unexpectedEof, "TAR member payload is truncated"⟩

def overBudget : IoError := ⟨.outOfMemory, "PAX metadata exceeds metadata budget"⟩

abbrev ReadAt := Nat → Nat → Except IoError Bytes

def readExact (read : ReadAt) (start size : Nat) : Except IoError Bytes :=
  (read start size).bind fun data => if data.length = size then .ok data else .error truncated

def isText (bytes : Bytes) : Bool := (fromUtf8 bytes).isSome

def space : UInt8 := 32

def newline : UInt8 := 10

def equals : UInt8 := 61

def isDigit (b : UInt8) : Bool := decide (48 ≤ b.toNat ∧ b.toNat ≤ 57)

/-- The number that decimal digits stand for. -/
def decimal (digits : Bytes) : Nat := digits.foldl (fun n b => 10 * n + (b.toNat - 48)) 0

def parseLength (text : Bytes) : Option Nat :=
  if text ≠ [] ∧ text.all isDigit ∧ decimal text < 2 ^ 64 then some (decimal text) else none

def pathKey : Bytes := toUtf8 ['p', 'a', 't', 'h']

def linkpathKey : Bytes := toUtf8 ['l', 'i', 'n', 'k', 'p', 'a', 't', 'h']

def sizeKey : Bytes := toUtf8 ['s', 'i', 'z', 'e']

def relevantKeys : List Bytes := [pathKey, linkpathKey, sizeKey]

def relevant (key : Bytes) : Bool := decide (key ∈ relevantKeys)

structure PaxState where
  cursor : Nat
  records : Dict Bytes Bytes
  retained : Nat

/-- Where the first space stands, and the length in front of it. -/
def recordLength (front : Bytes) (limit : Nat) : Option (Nat × Nat) :=
  (front.findIdx? fun b => b = space).bind fun at' =>
    ((parseLength (front.take at')).filter fun n => at' + 2 < n ∧ n ≤ limit).map fun n => (at', n)

/-- The length of a value that may be there already. -/
def oldLength (records : Dict Bytes Bytes) (key : Bytes) : Nat :=
  ((records.get? key).map List.length).getD 0

def paxValue (read : ReadAt) (start : Nat) (s : PaxState) (key : Bytes) (valueStart stop : Nat) :
    Except IoError PaxState :=
  let valueLen := stop - 1 - valueStart
  let old := oldLength s.records key
  if MAX_METADATA < key.length + valueLen ∨ MAX_METADATA < s.retained - old + valueLen then
    .error overBudget
  else
    (readExact read (start + valueStart) valueLen).bind fun value =>
      if isText value then .ok ⟨stop, s.records.set key value, s.retained - old + value.length⟩
      else .error invalid

/-- The part of a record behind its length. -/
def paxBody (read : ReadAt) (start : Nat) (s : PaxState) (front : Bytes) (at' length : Nat) :
    Except IoError PaxState :=
  let stop := s.cursor + length
  let body := (front.drop (at' + 1)).take (min front.length (length - 1) - (at' + 1))
  match body.findIdx? fun b => b = equals with
  | some equal =>
    let key := body.take equal
    if isText key ∧ relevant key then paxValue read start s key (s.cursor + at' + equal + 2) stop
    else .ok { s with cursor := stop }
  | none => if length ≤ front.length then .error invalid else .ok { s with cursor := stop }

def paxRecord (read : ReadAt) (start size : Nat) (s : PaxState) : Except IoError PaxState :=
  (readExact read (start + s.cursor) (min (size - s.cursor) 256)).bind fun front =>
    match recordLength front (size - s.cursor) with
    | none => .error invalid
    | some (at', length) =>
      (readExact read (start + (s.cursor + length) - 1) 1).bind fun last =>
        if last = [newline] then paxBody read start s front at' length else .error invalid

def paxTurn (read : ReadAt) (start size : Nat) (s : PaxState) :
    Option (PaxState ⊕ Except IoError (Dict Bytes Bytes)) :=
  some <|
    if s.cursor < size then
      match paxRecord read start size s with
      | .ok s' => .inl s'
      | .error e => .inr (.error e)
    else .inr (.ok s.records)

def pax (read : ReadAt) (start size : Nat) : Option (Except IoError (Dict Bytes Bytes)) :=
  loop (paxTurn read start size) (size + 1) ⟨0, ∅, 0⟩

end Sunpack.Tar
