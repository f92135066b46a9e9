import Sunpack.ArchiveState.DamagedOffsets
import Sunpack.ArchiveState.FlatInput

/-!
# The ZIP64 end record

`zip64.rs`: the record that a locator in front of the end record points to, looked for at the place
the locator names, right in front of the locator, and then backwards in windows.
-/

namespace Sunpack.ArchiveState

open Lib

/-- The little-endian number of some bytes. -/
def numberAt (bytes : List UInt8) (offset width : Nat) : Nat := ofLeBytes (slice bytes offset width)

namespace Zip64

def offsetLimit : Nat := 2 ^ 63

structure EndRecord where
  recordSize : Nat
  disk : Nat
  cdDisk : Nat
  diskEntries : Nat
  totalEntries : Nat
  cdSize : Nat
  cdOffset : Nat

structure Locator where
  recordDisk : Nat
  recordOffset : Nat
  totalDisks : Nat

def recordSignature : List UInt8 := [0x50, 0x4b, 6, 6]

def locatorSignature : List UInt8 := [0x50, 0x4b, 6, 7]

def parseRecord (bytes : List UInt8) : Except String EndRecord :=
  if bytes.length < 56 ∨ ¬ recordSignature <+: bytes then .error "zip64_eocd_invalid"
  else
    let record : EndRecord :=
      { recordSize := numberAt bytes 4 8
        disk := numberAt bytes 16 4
        cdDisk := numberAt bytes 20 4
        diskEntries := numberAt bytes 24 8
        totalEntries := numberAt bytes 32 8
        cdSize := numberAt bytes 40 8
        cdOffset := numberAt bytes 48 8 }
    if record.recordSize < 44 ∨ 2 ^ 62 ≤ record.recordSize then .error "zip64_eocd_size_invalid"
    else if offsetLimit ≤ record.cdSize ∨ offsetLimit ≤ record.cdOffset ∨
        (checked64 record.cdOffset record.cdSize).all (offsetLimit ≤ ·) then
      .error "zip64_central_directory_overflow"
    else .ok record

def parseLocator (bytes : List UInt8) : Except String Locator :=
  if bytes.length < 20 ∨ ¬ locatorSignature <+: bytes then .error "zip64_locator_invalid"
  else
    let locator : Locator :=
      { recordDisk := numberAt bytes 4 4
        recordOffset := numberAt bytes 8 8
        totalDisks := numberAt bytes 16 4 }
    if offsetLimit ≤ locator.recordOffset then .error "zip64_locator_offset_overflow"
    else .ok locator

structure LocatedEndRecord where
  offset : Nat
  record : EndRecord
  locator : Locator

inductive LocateError
  | read (error : ReadError)
  | invalid (code : String)
deriving DecidableEq

def LocateError.code : LocateError → String
  | .read _ => "zip64_eocd_read_failed"
  | .invalid code => code

abbrev Read := Nat → Nat → Except ReadError (List UInt8)

/-- A record counts if its declared extent ends at the locator. -/
def check (locator : Locator) (locatorOffset offset : Nat) (fixed : List UInt8) :
    Except LocateError (Option LocatedEndRecord) :=
  if fixed.length < 56 ∨ ¬ recordSignature <+: fixed then .ok none
  else if ((checked64 offset 12).bind fun start => checked64 start (numberAt fixed 4 8)) ≠
      some locatorOffset then .ok none
  else
    match parseRecord fixed with
    | .error code => .error (.invalid code)
    | .ok record => .ok (some ⟨offset, record, locator⟩)

/-- The first of some places in front of the locator where a record counts. -/
def tryOffsets (read : Read) (locator : Locator) (locatorOffset : Nat) :
    List Nat → Except LocateError (Option LocatedEndRecord)
  | [] => .ok none
  | offset :: offsets =>
    if (checked64 offset 56).any (· ≤ locatorOffset) then
      match read offset 56 with
      | .error e => .error (.read e)
      | .ok fixed =>
        match check locator locatorOffset offset fixed with
        | .error e => .error e
        | .ok (some found) => .ok (some found)
        | .ok none => tryOffsets read locator locatorOffset offsets
    else tryOffsets read locator locatorOffset offsets

/-- The last of the places below an index of a window where a record counts. -/
def tryWindow (locator : Locator) (locatorOffset start : Nat) (window : List UInt8) :
    Nat → Except LocateError (Option LocatedEndRecord)
  | 0 => .ok none
  | index + 1 =>
    if slice window index 4 = recordSignature then
      match check locator locatorOffset (start + index) (window.drop index) with
      | .error e => .error e
      | .ok (some found) => .ok (some found)
      | .ok none => tryWindow locator locatorOffset start window index
    else tryWindow locator locatorOffset start window index

def scanWindow : Nat := 64 * 1024

/-- Where the window that ends at a place starts. -/
def startOf (base stop : Nat) : Nat := max (stop - scanWindow) base

theorem startOf_lt {base stop : Nat} (h : base < stop) : startOf base stop < stop := by
  have hwindow : 0 < scanWindow := by decide
  rw [startOf]
  omega

/-- Windows backwards, with an overlap for records that cross their ends. -/
def scanBack (read : Read) (locator : Locator) (locatorOffset base stop : Nat) :
    Except LocateError (Option LocatedEndRecord) :=
  if base < stop then
    match read (startOf base stop) (min (sat64 stop 55) locatorOffset - startOf base stop) with
    | .error e => .error (.read e)
    | .ok window =>
      match tryWindow locator locatorOffset (startOf base stop) window window.length with
      | .error e => .error e
      | .ok (some found) => .ok (some found)
      | .ok none => scanBack read locator locatorOffset base (startOf base stop)
  else .error (.invalid "zip64_eocd_invalid")
termination_by stop
decreasing_by exact startOf_lt ‹_›

def locateWith (read : Read) (diskStarts : Option (List Nat)) (locatorOffset : Nat)
    (locator : Locator) : Except LocateError (Option LocatedEndRecord) :=
  if locator.totalDisks = 0 ∨ locator.totalDisks ≤ locator.recordDisk then
    .error (.invalid "zip64_locator_invalid")
  else
    match diskStarts.elim (some 0) (·[locator.recordDisk]?) with
    | none => .error (.invalid "central_directory_disk_offset_out_of_range")
    | some base =>
      match checked64 base locator.recordOffset with
      | none => .error (.invalid "zip64_locator_offset_overflow")
      | some declared =>
        let fixedStart := if 56 ≤ locatorOffset then [locatorOffset - 56] else []
        match tryOffsets read locator locatorOffset (declared :: fixedStart) with
        | .error e => .error e
        | .ok (some found) => .ok (some found)
        | .ok none => scanBack read locator locatorOffset base locatorOffset

def locateEndRecord (eocd : Nat) (diskStarts : Option (List Nat)) (read : Read) :
    Except LocateError (Option LocatedEndRecord) :=
  if eocd < 20 then .ok none
  else
    match read (eocd - 20) 20 with
    | .error e => .error (.read e)
    | .ok bytes =>
      if ¬ locatorSignature <+: bytes then .ok none
      else
        match parseLocator bytes with
        | .error code => .error (.invalid code)
        | .ok locator => locateWith read diskStarts (eocd - 20) locator

end Zip64

end Sunpack.ArchiveState
