import Sunpack.Relations.Groups

/-!
# The status of a mapping

`assignment_status` of `validate.rs`: whether the slots of a mapping make a complete archive, by what is
known about the volumes in them. Sums that do not fit into 64 bits have no value.
-/

namespace Sunpack.Relations.Assignment

structure ZipDirectory where
  offset : Nat
  size : Nat
  stop : Nat
  deriving DecidableEq

/-- The facts of a volume that assignments read. -/
structure VolumeAnchor where
  size : Nat := 0
  format : String := ""
  confidence : String := ""
  standalone : Bool := false
  needsPassword : Bool := false
  wrongPassword : Bool := false
  anchorRoles : List String := []
  internalVolumeNumber : Option Nat := none
  structureOffset : Option Nat := none
  payloadEnd : Option Nat := none
  carrierLimit : Option Nat := none
  expectedLogicalSize : Option Nat := none
  zipEocdOffset : Option Nat := none
  zipDirectory : Option ZipDirectory := none
  relationHasNext : Option Bool := none
  evidence : List String := []
  error : String := ""
  deriving DecidableEq

def checkedAdd (a b : Nat) : Option Nat := if a + b < 2 ^ 64 then some (a + b) else none

def checkedSub (a b : Nat) : Option Nat := if b ≤ a then some (a - b) else none

namespace VolumeAnchor

def extentEnd (a : VolumeAnchor) : Nat :=
  a.payloadEnd.getD <|
    if a.format = "rar" || (a.format = "zip" && "terminal" ∈ a.anchorRoles) then
      min (a.expectedLogicalSize.getD a.size) a.size
    else a.size

def payloadSize (a : VolumeAnchor) : Nat := a.extentEnd - a.structureOffset.getD 0

end VolumeAnchor

variable {n : Nat}

/-- `try_fold` with checked additions. -/
def checkedSum (size : Fin n → Option Nat) (parts : List (Nat × Fin n)) : Option Nat :=
  parts.foldlM (fun sum part => do checkedAdd sum (← size part.2)) 0

/-! ## The extent of a carrier -/

def sevenZipLength (anchor : Fin n → Option VolumeAnchor) (head : VolumeAnchor)
    (parts : List (Nat × Fin n)) : Option Nat := do
  let expected ← head.expectedLogicalSize
  let expected ← checkedSub expected (head.structureOffset.getD 0)
  let rest ← checkedSum (fun i => (anchor i).map VolumeAnchor.payloadSize)
    (parts.filter fun part => 1 < part.1)
  checkedSub expected rest

def zipLength (anchor : Fin n → Option VolumeAnchor) (parts : List (Nat × Fin n)) : Option Nat := do
  let tail ← parts.getLast?
  let directory ← (← anchor tail.2).zipDirectory
  let rest ← checkedSum
    (fun i => do
      let a ← anchor i
      if i = tail.2 then checkedSub directory.stop (a.structureOffset.getD 0) else some a.payloadSize)
    (parts.filter fun part => 1 < part.1)
  let total ← checkedAdd directory.offset directory.size
  checkedSub total rest

/-- Disks of one size. -/
def spannedLength (anchor : Fin n → Option VolumeAnchor) (parts : List (Nat × Fin n)) :
    Option Nat := do
  let disks := parts.filter fun part =>
    1 < part.1 && (anchor part.2).any fun a => !("terminal" ∈ a.anchorRoles)
  let lengths := disks.map fun part => (anchor part.2).map VolumeAnchor.payloadSize
  let length ← (← lengths.head?)
  if lengths.tail.any (· ≠ some length) then none else some length

def carrierLength (anchor : Fin n → Option VolumeAnchor) (format : String) (spanned : Bool)
    (head : VolumeAnchor) (parts : List (Nat × Fin n)) : Option Nat :=
  if format = "7z" then sevenZipLength anchor head parts
  else if format = "zip" && !spanned then zipLength anchor parts
  else if format = "zip" then spannedLength anchor parts
  else none

/-- The row of the head and the end of its payload. -/
def mappedCarrierEnd (anchor : Fin n → Option VolumeAnchor) (format : String) (spanned : Bool)
    (parts : List (Nat × Fin n)) : Option (Fin n × Nat) := do
  let part ← parts.find? fun part => part.1 = 1
  let head ← anchor part.2
  let limit ← head.carrierLimit
  if head.payloadEnd.isSome || format = "rar" then none
  else do
    let length ← carrierLength anchor format spanned head parts
    let stop ← checkedAdd (head.structureOffset.getD 0) length
    if 0 < length ∧ stop ≤ limit ∧ stop ≤ head.size then some (part.2, stop) else none

/-! ## Statuses of the formats -/

def rarStatus (anchor : Fin n → Option VolumeAnchor) (parts : List (Nat × Fin n))
    (head last : Option VolumeAnchor) : ProposalStatus :=
  let conflict := parts.any fun part => (anchor part.2).any fun a =>
    a.format ≠ "rar" || a.standalone || a.internalVolumeNumber.any (· ≠ part.1)
  if conflict then .reject
  else if head.any (fun a => "first" ∈ a.anchorRoles) &&
      last.any (fun a => a.relationHasNext = some false) then .valid
  else .inconclusive

def sevenZipStatus (anchor : Fin n → Option VolumeAnchor) (spanned : Bool)
    (parts : List (Nat × Fin n)) (head : Option VolumeAnchor) : ProposalStatus :=
  match head.filter fun a => a.format = "7z" && a.confidence = "strong" with
  | none => .inconclusive
  | some first =>
    let mapped := mappedCarrierEnd anchor "7z" spanned parts
    let size (i : Fin n) : Option Nat := do
      let a ← anchor i
      let stop := ((mapped.filter fun head => head.1 = i).map (·.2)).getD a.extentEnd
      checkedSub stop (a.structureOffset.getD 0)
    let actual := checkedSum size parts
    let expected := first.expectedLogicalSize.bind fun stop =>
      checkedSub stop (first.structureOffset.getD 0)
    match expected, actual with
    | some expected, some actual =>
      if actual = expected then .valid
      else if expected < actual then .reject
      else .inconclusive
    | _, _ => .inconclusive

def zipStatus (anchor : Fin n → Option VolumeAnchor) (spanned : Bool) (parts : List (Nat × Fin n))
    (head last : Option VolumeAnchor) : ProposalStatus :=
  let terminals := parts.filter fun part => (anchor part.2).any fun a => "terminal" ∈ a.anchorRoles
  if terminals.length ≠ 1 then .inconclusive
  else if spanned then
    if head.any (fun a => "zip:split_marker" ∈ a.evidence || "zip:local_header" ∈ a.evidence) &&
        last.any (fun a => "zip:eocd_split_terminal" ∈ a.evidence &&
          a.internalVolumeNumber = parts.getLast?.map (·.1)) then .valid
    else .inconclusive
  else if head.any (fun a => "zip:local_header" ∈ a.evidence) &&
      last.any (fun a => "zip:eocd_single_disk_without_local_header" ∈ a.evidence) then .valid
  else .inconclusive

/-- The slots do not count up from one. -/
def hasGap : Nat → List Nat → Bool
  | _, [] => false
  | previous, slot :: rest => slot ≠ previous + 1 || hasGap slot rest

/-- `assignment_status`, with the volumes by slot. -/
def assignmentStatus (anchor : Fin n → Option VolumeAnchor) (format : String) (spanned : Bool)
    (parts : List (Nat × Fin n)) : ProposalStatus :=
  if parts.any fun part => (anchor part.2).any fun a => a.error ≠ "" then .reject
  else if parts.any fun part => (anchor part.2).any fun a => a.needsPassword || a.wrongPassword then
    .needsPassword
  else
    let head := (parts.find? fun part => part.1 = 1).bind fun part => anchor part.2
    let last := parts.getLast?.bind fun part => anchor part.2
    let status :=
      if format = "rar" then rarStatus anchor parts head last
      else if format = "7z" then sevenZipStatus anchor spanned parts head
      else if format = "zip" then zipStatus anchor spanned parts head last
      else .unsupported
    if status = .valid && hasGap 0 (parts.map (·.1)) then .inconclusive else status

end Sunpack.Relations.Assignment
