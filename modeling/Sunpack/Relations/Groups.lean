import Sunpack.Relations.Rows

/-!
# Proposals and candidate groups

`materialize` turns a solved bucket into a proposal; `buildCandidateGroupsFromSource` claims the
proposals in three passes (valid, password, incomplete) and returns every filtered row that no
proposal claimed as an ordinary group. What the code learns from the files, the slot solver and the
verdict of `validate` are the fields of `Probes`: any answers at all.
-/

namespace Sunpack.Relations

inductive NumberingStyle
  | rarPart
  | rarOldStyle
deriving DecidableEq, Repr

inductive SfxRole
  | none
  | archiveBearingFirst
  | launcherCompanion
  | unknown
deriving DecidableEq, Repr

/-- The structural facts of a row that a proposal is made from. -/
structure StructuralFacts where
  numberingStyle : Option NumberingStyle
  sfxRole : SfxRole
  owned : Bool
deriving DecidableEq, Repr

structure NumberOccurrence where
  value : Nat
  width : Nat
deriving DecidableEq, Repr

structure NameFeatures where
  numbers : List NumberOccurrence
deriving DecidableEq, Repr

inductive RelationFailureReason
  | missingVolume
  | ambiguousVolumeMapping
  | structuralConflict
  | needsPassword
  | corruptArchive
  | unsupported
deriving DecidableEq, Repr

inductive ProposalStatus
  | valid
  | needsPassword
  | reject
  | unsupported
  | inconclusive
deriving DecidableEq, Repr

/-- Path, slot, style, width of the family's numbers, and a flag that is always off here. -/
structure Volume where
  path : Text
  slot : Nat
  style : String
  width : Nat
  flag : Bool
deriving DecidableEq, Repr

structure RelationProposal where
  format : String
  logicalName : String
  style : String
  volumes : List Volume
  companions : List Text
deriving DecidableEq, Repr

structure ProposalValidation where
  status : ProposalStatus
  proposal : RelationProposal
  anchors : List (Text × VolumeAnchor)
  reason : Option RelationFailureReason
  unresolved : List Text
  nameFeatures : List (Text × NameFeatures)
deriving DecidableEq, Repr

inductive GroupKind
  | valid
  | password
  | incomplete
deriving DecidableEq, Repr

inductive NativeRelationGroup
  | ordinary (row : RelationInput) (confirmed : Bool)
  | proposal (validation : ProposalValidation) (kind : GroupKind)
deriving DecidableEq, Repr

/-! ## Solved buckets -/

/-- `slots` is ordered by slot; rows are given by their index. -/
structure VolumeAssignment (n : Nat) where
  slots : List (Nat × Fin n)
  companions : List (Fin n)
  unresolved : List (Fin n)

structure BucketView (rows : List RelationInput) where
  indexes : List (Fin rows.length)
  facts : Fin rows.length → StructuralFacts
  features : Fin rows.length → Option NameFeatures
  format : String

/-- A bucket with the assignment the solver found, and the reason if it is not conclusive. -/
structure Solution (rows : List RelationInput) where
  view : BucketView rows
  assignment : VolumeAssignment rows.length
  logical : String
  reason : Option RelationFailureReason

variable {rows : List RelationInput}

def BucketView.spanned (view : BucketView rows) : Bool :=
  view.format = "zip" && view.indexes.any fun i => (rows.get i).anchor.any fun a =>
    "zip:split_marker" ∈ a.evidence || "zip:eocd_split_terminal" ∈ a.evidence

def BucketView.style (view : BucketView rows) (assignment : VolumeAssignment rows.length) :
    String :=
  if view.spanned then "zip_spanned"
  else if view.format = "rar" &&
      (assignment.slots.lookup 1).any (fun i => (view.facts i).sfxRole = .archiveBearingFirst) then
    "rar_sfx_part"
  else if view.format = "rar" &&
      view.indexes.any (fun i => (view.facts i).numberingStyle = some .rarOldStyle) then
    "rar_oldstyle"
  else if view.format = "rar" then "rar_part"
  else "numeric_suffix"

/-- Sibling names derive their padding from the canonical head. -/
def BucketView.familyWidth (view : BucketView rows) (assignment : VolumeAssignment rows.length) :
    Nat :=
  if view.spanned || (view.format = "rar" &&
      view.indexes.any fun i => (view.facts i).numberingStyle = some .rarOldStyle) then 2
  else
    ((((assignment.slots.lookup 1).bind view.features).bind fun f =>
      f.numbers.find? (·.value = 1)).map (·.width)).getD 3

/-- The assigned volumes and the unresolved members. A bucket without assigned volumes lists its
first owned member under slot zero, and is nothing if it owns none. -/
def Solution.members (s : Solution rows) : Option (List Volume × List Text) :=
  let style := s.view.style s.assignment
  let unresolved := (s.assignment.unresolved.filter fun i => (s.view.facts i).owned).map fun i =>
    (rows.get i).path
  match s.assignment.slots with
  | [] =>
    match s.view.indexes.find? fun i => (s.view.facts i).owned with
    | none => none
    | some i =>
      some ([⟨(rows.get i).path, 0, style, 3, false⟩], unresolved.filter (· ≠ (rows.get i).path))
  | slots =>
    some (slots.map fun (n, i) =>
      ⟨(rows.get i).path, n, style, s.view.familyWidth s.assignment, false⟩, unresolved)

def materialize (s : Solution rows) : Option ProposalValidation :=
  s.members.map fun (volumes, unresolved) =>
    { status := .inconclusive
      proposal :=
        { format := s.view.format
          logicalName := s.logical
          style := s.view.style s.assignment
          volumes := volumes
          companions := s.assignment.companions.map fun i => (rows.get i).path }
      anchors := (s.view.indexes ++ s.assignment.companions).filterMap fun i =>
        (rows.get i).anchor.map fun a => ((rows.get i).pathKey, a)
      reason := s.reason
      unresolved := unresolved
      nameFeatures := s.view.indexes.filterMap fun i =>
        (s.view.features i).map fun f => ((rows.get i).pathKey, f) }

/-- What `validate` decides; it leaves the proposal and its members alone. -/
structure Verdict where
  status : ProposalStatus
  reason : Option RelationFailureReason
  anchors : List (Text × VolumeAnchor)

/-- The answers of file probes, solver and validation. -/
structure Probes where
  /-- The anchor of the `i`-th row after the probes of `structural::collect`. -/
  collect : List RelationInput → BucketIndex → Option (List (Text × Text)) → Nat →
    Option VolumeAnchor
  solve : (rows : List RelationInput) → BucketIndex → Option RelationCache → List (Solution rows)
  validate : ProposalValidation → Verdict

def collect (P : Probes) (rows : List RelationInput) (index : BucketIndex)
    (passwords : Option (List (Text × Text))) : List RelationInput :=
  rows.mapIdx fun i row => { row with anchor := P.collect rows index passwords i }

/-- Stable order by logical name, then format. -/
def proposalLe (a b : ProposalValidation) : Bool :=
  a.proposal.logicalName < b.proposal.logicalName ||
    (a.proposal.logicalName = b.proposal.logicalName && a.proposal.format ≤ b.proposal.format)

def resolveBuckets (P : Probes) (rows : List RelationInput) (index : BucketIndex)
    (cached : Option RelationCache) : List ProposalValidation :=
  ((P.solve rows index cached).filterMap materialize).mergeSort proposalLe

def validate (P : Probes) (v : ProposalValidation) : ProposalValidation :=
  { v with
    status := (P.validate v).status
    reason := (P.validate v).reason
    anchors := (P.validate v).anchors }

/-! ## Ownership and conflicts -/

variable (T : DowncaseTable)

def proposalOwnedPaths (proposal : RelationProposal) : List Text :=
  (proposal.volumes.map fun part => T.pathKey part.path) ++ proposal.companions.map T.pathKey

/-- A set: no path twice. -/
def validationOwnedPaths (v : ProposalValidation) : List Text :=
  (proposalOwnedPaths T v.proposal ++ v.unresolved.map T.pathKey).dedup

structure Owners where
  ownerByPath : List (Text × Nat) := []
  conflicted : List Nat := []

def Owners.note (o : Owners) (index : Nat) (path : Text) : Owners :=
  match o.ownerByPath.lookup path with
  | some previous => { o with conflicted := previous :: index :: o.conflicted }
  | none => { o with ownerByPath := (path, index) :: o.ownerByPath }

/-- The indexes that share a path with another one of `indexes`. -/
def conflictingIndexesAmong (ownedPaths : List (List Text)) (indexes : List Nat) : List Nat :=
  (indexes.foldl (fun (o : Owners) index =>
    (ownedPaths.getD index []).foldl (fun o path => o.note index path) o) {}).conflicted

/-! ## Claiming -/

structure Claims where
  output : List NativeRelationGroup := []
  claimedPaths : List Text := []
  passwordPaths : List Text := []

/-- The paths that stop a pass from claiming a proposal. -/
def Claims.taken (c : Claims) : GroupKind → List Text
  | .valid | .password => c.claimedPaths
  | .incomplete => c.claimedPaths ++ c.passwordPaths

def Claims.take (c : Claims) (kind : GroupKind) (owned : List Text) : Claims :=
  match kind with
  | .valid | .incomplete => { c with claimedPaths := c.claimedPaths ++ owned }
  | .password => { c with passwordPaths := c.passwordPaths ++ owned }

/-- A member of the proposal is a filtered row. -/
def selected (filteredKeys : List Text) (v : ProposalValidation) : Bool :=
  (v.proposal.volumes.any fun part => T.pathKey part.path ∈ filteredKeys) ||
    (v.unresolved.any fun path => T.pathKey path ∈ filteredKeys) ||
    (v.proposal.companions.any fun path => T.pathKey path ∈ filteredKeys)

/-- One turn of a pass: `candidate` says which validations it is about. -/
def Claims.turn (filteredKeys : List Text) (kind : GroupKind)
    (candidate : ProposalValidation → Bool) (conflicted : List Nat) (c : Claims)
    (item : ProposalValidation × Nat) : Claims :=
  let (v, index) := item
  if !candidate v || index ∈ conflicted then c
  else
    let owned := validationOwnedPaths T v
    if owned.any (· ∈ c.taken kind) then c
    else
      let c := c.take kind owned
      if selected T filteredKeys v then
        { c with output := c.output ++ [.proposal v kind] }
      else c

/-- A pass over all validations. -/
def Claims.pass (filteredKeys : List Text) (validations : List ProposalValidation)
    (kind : GroupKind) (candidate : ProposalValidation → Bool) (c : Claims) : Claims :=
  let conflicted := conflictingIndexesAmong (validations.map (validationOwnedPaths T))
    ((validations.zipIdx.filter fun (v, _) => candidate v).map (·.2))
  validations.zipIdx.foldl (Claims.turn T filteredKeys kind candidate conflicted) c

/-- A structurally proven set whose volumes could not all be mapped. -/
def isIncomplete (v : ProposalValidation) : Bool :=
  v.status = .inconclusive && v.reason.any fun reason =>
    reason = .missingVolume || reason = .ambiguousVolumeMapping || reason = .structuralConflict

def claimProposals (filteredKeys : List Text) (validations : List ProposalValidation) : Claims :=
  let c : Claims := {}
  let c := c.pass T filteredKeys validations .valid (·.status = .valid)
  let c := c.pass T filteredKeys validations .password (·.status = .needsPassword)
  c.pass T filteredKeys validations .incomplete isIncomplete

def anchorIsRelationArchive (anchor : VolumeAnchor) : Bool :=
  let offset := anchor.structureOffset.getD 0
  let provenSfx := offset > 0 && anchor.sfx && anchor.peState = .confirmed
  if ¬ anchor.format ∈ ["rar", "7z", "zip"] || anchor.confidence ≠ "strong" ||
      !(anchor.standalone || anchor.needsPassword || provenSfx) then false
  else offset = 0 || provenSfx

/-- The groups of a scope: claimed proposals, then the rows nothing claimed. -/
def claimGroups (filteredKeys : List Text) (directoryRows : List RelationInput)
    (validations : List ProposalValidation) : List NativeRelationGroup :=
  let c := claimProposals T filteredKeys validations
  c.output ++ (directoryRows.filter fun row =>
    row.pathKey ∈ filteredKeys && !(row.pathKey ∈ c.claimedPaths) &&
      !(row.pathKey ∈ c.passwordPaths)).map fun row =>
        .ordinary row (row.anchor.any anchorIsRelationArchive)

def buildCandidateGroupsFromSource (P : Probes) (source : RelationSource)
    (filteredKeys : List Text) (pathPasswords : Option (List (Text × Text)))
    (cached : Option RelationCache) : List NativeRelationGroup :=
  let scope := RelationScopeIndex.build T (source.materializeAll T) filteredKeys
  let nameIndex := BucketIndex.build T scope filteredKeys
  let directoryRows := collect P scope nameIndex pathPasswords
  let validations := (resolveBuckets P directoryRows nameIndex cached).map (validate P)
  claimGroups T filteredKeys directoryRows validations

end Sunpack.Relations
