import Mathlib.Tactic
import Sunpack.Lib.Dict
import Sunpack.Lib.Machine

/-!
# Claims of pipeline sources

The sections of `scheduler.py` under `_claim_gate`: who has claimed which source, which of them are
being probed, and which paths were touched while they were claimed. A path is the value of `abspath`,
and a claim gets the paths that `dedupe_normalized_paths` leaves.

`refused` counts, for each key, the events refused and the probes cancelled since its claim began, and
`episodes` the claims of a key that have ended with one of them; both are history.
-/

namespace Sunpack.SourceClaims

open Lib

/-- An owner is the id of a request; the empty one is none. -/
abbrev Owner := String

structure SourceClaim where
  owner : Owner
  promotedNestedInput : Bool := false
deriving DecidableEq, Repr

/-- A probe is the object with its number. -/
structure SourceProbe (Path : Type) where
  number : Nat
  path : Path
  allowOwned : Bool
  recheck : Bool

structure Gate (Path Key : Type) [DecidableEq Key] where
  activeClaims : Dict Key SourceClaim := ∅
  claimsByOwner : Dict Owner (List Key) := ∅
  dirtyDuringClaim : Dict Owner (Dict Key Path) := ∅
  sourceProbes : Dict Key (SourceProbe Path) := ∅
  nextProbe : Nat := 0
  /-- What the loops of `_release_pipeline_source_claims` have still to enqueue. -/
  reconcile : List Path := []
  enqueued : List Path := []
  refused : Key → Nat := fun _ => 0
  episodes : Key → Nat := fun _ => 0

namespace Gate

variable {Path Key : Type} [DecidableEq Key] (pathKey : Path → Key)

/-- `dirty.setdefault(owner, {})[key] = path`. -/
def mark (g : Gate Path Key) (owner : Owner) (key : Key) (path : Path) : Gate Path Key :=
  { g with
    dirtyDuringClaim := g.dirtyDuringClaim.set owner
      (((g.dirtyDuringClaim.get? owner).getD ∅).set key path) }

def refuse (g : Gate Path Key) (key : Key) : Gate Path Key :=
  { g with refused := Function.update g.refused key (g.refused key + 1) }

/-- `_defer_claimed_path_locked`. -/
def deferClaimedPath (g : Gate Path Key) (path : Path) : Bool × Gate Path Key :=
  match g.activeClaims.get? (pathKey path) with
  | none => (false, g)
  | some claim => (true, (g.mark claim.owner (pathKey path) path).refuse (pathKey path))

/-! ## Probes -/

/-- `ignored`: the scheduler is closed, or the path is one that it ignores. -/
def startSourceProbe (g : Gate Path Key) (path : Path) (allowOwned replaceActive ignored : Bool) :
    Gate Path Key :=
  if ignored then g
  else
    let deferred := g.deferClaimedPath pathKey path
    if deferred.1 then deferred.2
    else
      let probe : SourceProbe Path := ⟨g.nextProbe, path, allowOwned, !replaceActive⟩
      match g.sourceProbes.get? (pathKey path) with
      | some previous =>
        if replaceActive then
          { g with
            sourceProbes := g.sourceProbes.set (pathKey path)
              { probe with recheck := probe.recheck || previous.recheck }
            nextProbe := g.nextProbe + 1 }
        else
          { g with
            sourceProbes := g.sourceProbes.set (pathKey path) { previous with recheck := true } }
      | none =>
        { g with
          sourceProbes := g.sourceProbes.set (pathKey path) probe
          nextProbe := g.nextProbe + 1 }

def endSourceProbe (g : Gate Path Key) (path : Path) (number : Nat) : Gate Path Key :=
  if (g.sourceProbes.get? (pathKey path)).any (·.number = number) then
    { g with sourceProbes := g.sourceProbes.erase (pathKey path) }
  else g

/-! ## Claims -/

/-- The probe of a key that is claimed ends, and the path is looked at again after the claim. -/
def cancelProbe (g : Gate Path Key) (owner : Owner) (key : Key) : Gate Path Key :=
  match g.sourceProbes.get? key with
  | none => g
  | some probe =>
    (({ g with sourceProbes := g.sourceProbes.erase key }).mark owner key probe.path).refuse key

/-- The key leaves its owner; `none` is a `KeyError`. -/
def removeKey (claims : Dict Owner (List Key)) (owner : Owner) (key : Key) :
    Option (Dict Owner (List Key)) :=
  match claims.get? owner with
  | none => none
  | some keys =>
    if key ∈ keys then
      some (if keys.erase key = [] then claims.erase owner else claims.set owner (keys.erase key))
    else none

/-- The dirty mark goes with its key. -/
def moveDirty (g : Gate Path Key) (previous owner : Owner) (key : Key) : Gate Path Key :=
  match g.dirtyDuringClaim.get? previous with
  | none => g
  | some dirty =>
    match dirty.get? key with
    | none => g
    | some path =>
      let moved := g.mark owner key path
      if (dirty.erase key).keys = [] then
        { moved with dirtyDuringClaim := moved.dirtyDuringClaim.erase previous }
      else
        { moved with dirtyDuringClaim := moved.dirtyDuringClaim.set previous (dirty.erase key) }

def takeKey (g : Gate Path Key) (owner : Owner) (key : Key) (promoted : Bool) : Gate Path Key :=
  let keys := (g.claimsByOwner.get? owner).getD []
  { g with
    activeClaims := g.activeClaims.set key ⟨owner, promoted⟩
    claimsByOwner := g.claimsByOwner.set owner (if key ∈ keys then keys else keys ++ [key]) }

/-- One round of the loop of `_claim_pipeline_sources`: whether the source is promoted, and the gate. -/
def claimKey (g : Gate Path Key) (owner : Owner) (promotedKeys : List Key) (key : Key) :
    Option (Bool × Gate Path Key) :=
  let g := g.cancelProbe owner key
  match g.activeClaims.get? key with
  | none =>
    let promoted : Bool := key ∈ promotedKeys
    some (promoted, g.takeKey owner key promoted)
  | some previous =>
    let promoted := key ∈ promotedKeys || previous.promotedNestedInput
    if previous.owner = "" ∨ previous.owner = owner then
      some (promoted, g.takeKey owner key promoted)
    else
      match removeKey g.claimsByOwner previous.owner key with
      | none => none
      | some claims =>
        some (promoted, (({ g with claimsByOwner := claims }).moveDirty previous.owner owner key).takeKey
          owner key promoted)

def claimKeys (g : Gate Path Key) (owner : Owner) (promotedKeys : List Key) (promoted : Bool) :
    List Key → Option (Bool × Gate Path Key)
  | [] => some (promoted, g)
  | key :: keys => (g.claimKey owner promotedKeys key).bind fun next =>
      next.2.claimKeys owner promotedKeys (promoted || next.1) keys

/-- `_claims_by_owner.setdefault(owner, set())`. -/
def setDefaultKeys (g : Gate Path Key) (owner : Owner) : Gate Path Key :=
  { g with
    claimsByOwner := g.claimsByOwner.set owner ((g.claimsByOwner.get? owner).getD []) }

/-- `_claim_pipeline_sources`; `none` is a `KeyError`. -/
def claimPipelineSources (g : Gate Path Key) (owner : Owner) (paths : List Path)
    (promotedKeys : List Key) : Option (Bool × Gate Path Key) :=
  if owner = "" ∨ paths = [] then some (false, g)
  else
    (g.setDefaultKeys owner).claimKeys owner promotedKeys false (paths.map pathKey)

/-- The gate of `_release_pipeline_source_claims`. -/
def releasePipelineSourceClaims (g : Gate Path Key) (owner : Owner) : Gate Path Key :=
  if owner = "" then g
  else
    let owned := (g.claimsByOwner.get? owner).getD []
    let active := g.activeClaims.filter (· ∉ owned)
    let dirty := (g.dirtyDuringClaim.get? owner).getD ∅
    { g with
      claimsByOwner := g.claimsByOwner.erase owner
      activeClaims := active
      dirtyDuringClaim := g.dirtyDuringClaim.erase owner
      reconcile := g.reconcile ++
        (dirty.entries.filter fun entry => active.get? entry.1 = none).map (·.2)
      refused := fun key => if key ∈ owned then 0 else g.refused key
      episodes := fun key =>
        if key ∈ owned ∧ 0 < g.refused key then g.episodes key + 1 else g.episodes key }

end Gate

/-! ## Steps -/

inductive Action (Path Key : Type)
  | claim (owner : Owner) (paths : List Path) (promotedKeys : List Key)
  | release (owner : Owner)
  | startProbe (path : Path) (allowOwned replaceActive ignored : Bool)
  | endProbe (path : Path) (number : Nat)
  /-- A loop of `_release_pipeline_source_claims` enqueues a path. -/
  | enqueue (path : Path)

variable {Path Key : Type} [DecidableEq Path] [DecidableEq Key]

def step (pathKey : Path → Key) (g : Gate Path Key) : Action Path Key → Option (Gate Path Key)
  | .claim owner paths promotedKeys =>
    (g.claimPipelineSources pathKey owner paths promotedKeys).map (·.2)
  | .release owner => some (g.releasePipelineSourceClaims owner)
  | .startProbe path allowOwned replaceActive ignored =>
    some (g.startSourceProbe pathKey path allowOwned replaceActive ignored)
  | .endProbe path number => some (g.endSourceProbe pathKey path number)
  | .enqueue path =>
    if path ∈ g.reconcile then
      some { g with reconcile := g.reconcile.erase path, enqueued := g.enqueued ++ [path] }
    else none

def machine (pathKey : Path → Key) : Machine (Gate Path Key) (Action Path Key) where
  init := {}
  step := step pathKey

end Sunpack.SourceClaims
