import Sunpack.Relations.Assignment.Names
import Sunpack.Relations.Assignment.Status
import Sunpack.Relations.Numeric.Solver

/-!
# Buckets and their slots

`BucketView` of `assignment.rs`: which member of a bucket is which volume. Structural facts come first,
then the channels of file names, then the numeric solver. The order of a hash set is any function on the
list of its elements.
-/

namespace Sunpack.Relations.Assignment

open Lib

inductive VolumeRole
  | first
  | middle
  | terminal
  | firstAndTerminal
  | unknown
  deriving DecidableEq

structure StructuralFacts where
  exactSlot : Option Nat
  role : VolumeRole
  hasPrevious : Option Bool
  hasNext : Option Bool
  numberingStyle : Option NumberingStyle
  owned : Bool
  deriving DecidableEq

/-- The members of a bucket are different rows. -/
structure BucketView (n : Nat) where
  anchors : Fin n → Option VolumeAnchor
  indexes : List (Fin n)
  nodup : indexes.Nodup
  facts : Fin n → StructuralFacts
  features : Fin n → Option NameFeatures
  format : String
  looseNumericAllowed : Bool

/-- Slots that are ordered by their numbers. -/
abbrev Slots (n : Nat) := List (Nat × Fin n)

namespace BucketView

variable {n : Nat} (view : BucketView n)

/-- A member may have a slot, below a bound for the last one. -/
def legal (i : Fin n) (slot : Nat) (terminal : Option Nat) : Prop :=
  0 < slot ∧ ((view.facts i).hasPrevious = some true → 1 < slot) ∧
    ((view.facts i).role = .first ∨ (view.facts i).role = .firstAndTerminal → slot = 1) ∧
    ∀ stop ∈ terminal, slot ≤ stop ∧ ((view.facts i).hasNext = some true → slot < stop) ∧
      ((view.facts i).role = .terminal ∨ (view.facts i).role = .firstAndTerminal → slot = stop)

instance (i : Fin n) (slot : Nat) (terminal : Option Nat) : Decidable (view.legal i slot terminal) := by
  unfold legal
  infer_instance

def isLast (i : Fin n) : Bool := (view.facts i).hasNext = some false

def terminal : Option Nat :=
  (view.indexes.filterMap fun i => if view.isLast i then (view.facts i).exactSlot else none).min?

/-- The lowest slot of a member that is the last one. -/
def mappedTerminal (slots : Slots n) : Option Nat :=
  ((slots.filter fun e => view.isLast e.2).map (·.1)).min?

def terminalForAssignment (slots : Slots n) : Option Nat := view.mappedTerminal slots <|> view.terminal

def spanned : Bool :=
  view.format = "zip" && view.indexes.any fun i => (view.anchors i).any fun a =>
    "zip:split_marker" ∈ a.evidence || "zip:eocd_split_terminal" ∈ a.evidence

def ownsUnresolved (mapping : VolumeAssignment n) : Bool :=
  mapping.unresolved.any fun i => (view.facts i).owned

def complete (mapping : VolumeAssignment n) : Bool :=
  !view.ownsUnresolved mapping &&
    assignmentStatus view.anchors view.format view.spanned mapping.slots = .valid

/-! ## Structure -/

/-- One member: its exact slot, or it stays unresolved. -/
def fix (out : VolumeAssignment n) (i : Fin n) : Except RelationFailureReason (VolumeAssignment n) :=
  match (view.facts i).exactSlot with
  | some slot =>
    if ¬view.legal i slot view.terminal ∨ (out.slots.lookup slot).isSome then
      .error .structuralConflict
    else .ok { out with slots := insertKey slot i out.slots }
  | none => .ok { out with unresolved := out.unresolved ++ [i] }

/-- The first slot that is not there. -/
def nextFree : List Nat → Nat → Nat
  | [], next => next
  | slot :: rest, next => if slot = next then nextFree rest (next + 1) else next

/-- One gap below a known end goes to the only member without a slot. -/
def fillGap (out : VolumeAssignment n) : VolumeAssignment n :=
  match out.unresolved, view.terminal with
  | [i], some stop =>
    let next := nextFree (out.slots.map (·.1)) 1
    if stop = out.slots.length + 1 ∧ view.legal i next view.terminal then
      { out with
        slots := insertKey next i out.slots
        unresolved := [] }
    else out
  | _, _ => out

def fixed : Except RelationFailureReason (VolumeAssignment n) :=
  (view.indexes.foldlM view.fix ⟨[], [], []⟩).map view.fillGap

def mappingRolesLegal (mapping : VolumeAssignment n) : Bool :=
  mapping.slots.all fun e => view.legal e.2 e.1 (view.mappedTerminal mapping.slots)

/-! ## Mappings -/

/-- The members in their order, with the slots from one on. -/
def compacted (slots : Slots n) : Slots n := (slots.map (·.2)).zipIdx 1 |>.map fun e => (e.2, e.1)

/-- The tail of a raw ZIP set agrees that no chunk is missing. -/
def zipTailFits (compact : Slots n) : Bool :=
  match compact.getLast? with
  | none => false
  | some last =>
    match view.anchors last.2 with
    | none => false
    | some tail =>
      match tail.zipDirectory with
      | none => false
      | some directory =>
        let available : Option Nat := do
          let front ← checkedSum (fun i => (view.anchors i).map VolumeAnchor.payloadSize)
            compact.dropLast
          let eocd ← tail.zipEocdOffset
          let eocd ← checkedSub eocd (tail.structureOffset.getD 0)
          checkedAdd front eocd
        match checkedAdd directory.offset directory.size, available with
        | some stop, some available => stop ≤ available
        | _, _ => false

/-- The labels of a mapping may stand for an order only. -/
def mayCompact (mapping : VolumeAssignment n) : Bool :=
  !(view.complete mapping || !(view.format = "7z" || (view.format = "zip" && !view.spanned)) ||
      view.ownsUnresolved mapping) &&
    (compacted mapping.slots).map (·.1) ≠ mapping.slots.map (·.1) &&
    (compacted mapping.slots).all (fun e => (view.facts e.2).exactSlot.all (· = e.1)) &&
    (view.format ≠ "zip" || view.zipTailFits (compacted mapping.slots))

def finishMapping (mapping : VolumeAssignment n) : Option (VolumeAssignment n) :=
  if !view.mappingRolesLegal mapping then none
  else if !view.mayCompact mapping then some mapping
  else
    let compact := { mapping with slots := compacted mapping.slots }
    if !view.mappingRolesLegal compact || !view.complete compact then some mapping else some compact

/-- A number of a channel, moved by an offset; slots are words of 32 bits. -/
def channelNumber (profile : NameProfile) (channel : NumberChannel) (offset : Int)
    (features : NameFeatures) : Option Nat :=
  ((profile.number channel features).bind fun value =>
    if 0 ≤ (value : Int) + offset ∧ (value : Int) + offset < 2 ^ 32 then
      some ((value : Int) + offset).toNat
    else none).filter (0 < ·)

/-- Where a raw set counts from. -/
def originOffset (structural : VolumeAssignment n) (channel : NumberChannel) (generic : Bool)
    (profile : NameProfile) : Int :=
  if generic && (view.format = "7z" || view.format = "zip") && !view.spanned then
    (((structural.slots.lookup 1).bind view.features).bind (profile.number channel)).elim 0
      fun value => 1 - (value : Int)
  else 0

/-- The numbers of members that have a slot already contradict it. -/
def contradicts (number : NameFeatures → Option Nat) (slots : Slots n) : Bool :=
  slots.any fun e => ((view.features e.2).bind number).any (· ≠ e.1)

/-- One member without a slot: the slot of its number, if it is legal. -/
def place (number : NameFeatures → Option Nat) (terminal : Option Nat)
    (out : VolumeAssignment n × Nat) (i : Fin n) : Option (VolumeAssignment n × Nat) := do
  let features ← view.features i
  match (number features).filter fun slot => view.legal i slot terminal with
  | some slot =>
    if (out.1.slots.lookup slot).isSome then none
    else some ({ out.1 with slots := insertKey slot i out.1.slots }, out.2 + 1)
  | none => some ({ out.1 with unresolved := out.1.unresolved ++ [i] }, out.2)

def evaluate (fixed structural : VolumeAssignment n) (channel : NumberChannel) (generic : Bool)
    (profile : NameProfile) : Option (VolumeAssignment n) := do
  let offset := view.originOffset structural channel generic profile
  let number := channelNumber profile channel offset
  let terminal := view.terminalForAssignment fixed.slots <|>
    ((view.indexes.filter view.isLast).filterMap fun i => (view.features i).bind number).min?
  if view.contradicts number (if generic then structural.slots else fixed.slots) then none
  else do
    let placed ← fixed.unresolved.foldlM (view.place number terminal)
      ({ fixed with unresolved := [] }, 0)
    if placed.2 = 0 then none else view.finishMapping placed.1

/-! ## Loose numbers -/

/-- The value that all numbers of a name agree on. -/
def nameNumber (profile : NameProfile) (features : NameFeatures) : Option Nat :=
  agreed ((features.numbers.filter fun n => 0 < n.value && profile.active n).map (·.value))

/-- The number that all last members agree on. -/
def nameTerminal (profile : NameProfile) : Option Nat :=
  ((view.indexes.filter view.isLast).mapM fun i => (view.features i).bind (nameNumber profile)).bind
    agreed

/-- A number with the narrowest width it came with. -/
def noteWidth (numbers : List (Nat × Nat)) (n : NumberOccurrence) : List (Nat × Nat) :=
  insertKey n.value (((numbers.lookup n.value).map fun width => min width n.width).getD n.width)
    numbers

def domain (profile : NameProfile) (slots : Slots n) (terminal : Option Nat) (maximum : Nat)
    (i : Fin n) : Numeric.NumericDomain n where
  row := i
  required := (view.facts i).owned
  numbers :=
    match view.features i with
    | none => []
    | some features =>
      (features.numbers.filter fun n => n.value ≤ maximum && profile.active n &&
        !(slots.lookup n.value).isSome && view.legal i n.value terminal).foldl noteWidth []

def solveLooseNumeric (fixed : VolumeAssignment n) (profile : NameProfile) :
    Option (Except RelationFailureReason (VolumeAssignment n)) :=
  if !view.looseNumericAllowed || !(fixed.slots.lookup 1).isSome then some (.error .missingVolume)
  else do
    let terminal := view.terminalForAssignment fixed.slots <|> view.nameTerminal profile
    let maximum := terminal.getD (min view.indexes.length (2 ^ 32 - 1))
    let solved ← Numeric.solve fixed
      (fixed.unresolved.map (view.domain profile fixed.slots terminal maximum))
    some (solved.bind fun out =>
      match view.finishMapping out with
      | some mapping => .ok mapping
      | none => .error .structuralConflict)

/-! ## Tiers -/

/-- RAR sets do not mix their two styles of names. -/
def styleFits (style : Option NumberingStyle) (p : ParsedVolume) : Bool :=
  match style with
  | some .rarOldStyle => p.style = "rar_oldstyle"
  | some .rarPart => p.style ≠ "rar_oldstyle"
  | none => true

def canonicalChannels : List NumberChannel :=
  let style := view.indexes.findSome? fun i => (view.facts i).numberingStyle
  let parts := (view.indexes.filterMap view.features).flatMap NameFeatures.canonical
  let channels := (parts.filter fun p =>
      p.family = view.format && (view.format ≠ "rar" || styleFits style p)).map fun p =>
    NumberChannel.canonical view.format
      (if p.style = "rar_sfx_part" then "rar_part" else p.style) none
  let rarPart := view.format = "rar" &&
    view.indexes.any fun i => (view.facts i).numberingStyle = some .rarPart
  ((if rarPart then [NumberChannel.rarPart] else []) ++ channels).dedup

/-- A name with a number of its slot, or any numbered name next to a head. -/
def seed (structural : VolumeAssignment n) (profile : NameProfile) : Option NameFeatures :=
  let anchored := structural.slots.findSome? fun e => (view.features e.2).filter fun f =>
    f.numbers.any fun n => n.value = e.1 && profile.active n
  anchored <|>
    if (structural.slots.lookup 1).isSome then
      structural.unresolved.findSome? fun i => (view.features i).filter fun f =>
        f.numbers.any fun n => 0 < n.value && profile.active n
    else none

def tokenChannels (structural : VolumeAssignment n) (profile : NameProfile) : List NumberChannel :=
  match view.seed structural profile with
  | none => []
  | some f => ((NumberChannel.tokens f).filter fun c => (profile.number c f).isSome).dedup

/-- The mapping of a tier so far, whether it is complete, and whether there are two. -/
structure Tier (n : Nat) where
  mapping : Option (VolumeAssignment n) := none
  complete : Bool := false
  ambiguous : Bool := false

def Tier.take (tier : Tier n) (candidate : VolumeAssignment n) (candidateComplete : Bool) : Tier n :=
  match tier.mapping with
  | none => ⟨some candidate, candidateComplete, tier.ambiguous⟩
  | some old =>
    if tier.complete && !candidateComplete then tier
    else
      ⟨some candidate, candidateComplete,
        if !tier.complete && candidateComplete then false
        else tier.ambiguous || old.slots ≠ candidate.slots⟩

def Tier.run (fixed structural : VolumeAssignment n) (profile : NameProfile) (generic : Bool)
    (tier : Tier n) (channel : NumberChannel) : Tier n :=
  match view.evaluate fixed structural channel generic profile with
  | none => tier
  | some candidate => tier.take candidate (view.complete candidate)

/-- A result of `solve`. -/
abbrev Solved (n : Nat) := VolumeAssignment n × Option RelationFailureReason

/-- A tier ends the search, or goes on with a mapping. -/
def runTier (fixed structural : VolumeAssignment n) (profile : NameProfile)
    (channels : List NumberChannel) (generic : Bool) : VolumeAssignment n ⊕ Solved n :=
  let tier := channels.foldl (Tier.run view fixed structural profile generic) {}
  if tier.ambiguous then .inr (fixed, some .ambiguousVolumeMapping)
  else
    match tier.mapping with
    | none => .inl fixed
    | some mapping =>
      if mapping.unresolved.isEmpty || view.complete mapping then
        .inr ({ mapping with unresolved := [] }, none)
      else .inl mapping

def finish (fixed : VolumeAssignment n) (profile : NameProfile) : Option (Solved n) :=
  if !fixed.slots.isEmpty && !view.ownsUnresolved fixed && view.format = "rar" then
    some ({ fixed with unresolved := [] }, none)
  else
    (view.solveLooseNumeric fixed profile).map fun result =>
      match result with
      | .ok mapping => (mapping, none)
      | .error reason => (fixed, some reason)

def solveNames (order : List NumberChannel → List NumberChannel) (structural : VolumeAssignment n) :
    Option (Solved n) :=
  let profile := NameProfile.new (view.indexes.filterMap view.features)
  match view.runTier structural structural profile (order view.canonicalChannels) false with
  | .inr solved => some solved
  | .inl fixed =>
    match view.runTier fixed structural profile (order (view.tokenChannels structural profile)) true with
    | .inr solved => some solved
    | .inl fixed => view.finish fixed profile

def solve (order : List NumberChannel → List NumberChannel) : Option (Solved n) :=
  match view.fixed with
  | .error reason => some (⟨[], [], view.indexes⟩, some reason)
  | .ok structural =>
    if structural.unresolved.isEmpty then some (structural, none)
    else view.solveNames order structural

end BucketView

end Sunpack.Relations.Assignment
