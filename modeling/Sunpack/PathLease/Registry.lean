import Sunpack.PathLease.Table
import Sunpack.PathLease.Pins
import Sunpack.PathLease.Waiters

/-!
# The registry of path leases

The sections of `_PathLeaseRegistry` that run under its lock. There is no result where a section
would raise `KeyError`.
-/

namespace Sunpack.PathLease

open Lib

abbrev Generation := List VersionRow × Bool

structure Registry (names : PathNames) (Owner Lease : Type) where
  table : LeaseTable names Owner := {}
  pinning : PinTable Owner Lease := {}
  ownerGenerations : Dict Owner Generation := ∅
  generationOwners : Dict Generation Owner := ∅
  waiters : Waiters Owner := {}

inductive ReplaceOutcome (Owner : Type)
  | claimed
  | coalesced (owner : Owner)
  | waits (waiter : Nat) (blockers : List Owner)

namespace Registry

variable {names : PathNames} {Owner Lease : Type} [DecidableEq Owner] [DecidableEq Lease]

/-- `_wake_waiters_for` if paths were removed. -/
def wakeIf (r : Registry names Owner Lease) (removed : Bool) (owner : Owner) :
    Registry names Owner Lease :=
  if removed then { r with waiters := r.waiters.wakeWaitersFor owner } else r

/-- `_claim`. -/
def claim (r : Registry names Owner Lease) (owner : Owner) (paths : List (LeasePath names))
    (version : List VersionRow) (deepDetect : Bool) : Registry names Owner Lease :=
  let r := { r with table := r.table.claim owner paths }
  if version = [] then r
  else
    { r with
      ownerGenerations := r.ownerGenerations.set owner (version, deepDetect)
      generationOwners := r.generationOwners.set (version, deepDetect) owner }

/-- `_remove_owner`. -/
def removeOwner (r : Registry names Owner Lease) (owner : Owner) :
    Option (Registry names Owner Lease × Bool) := do
  let s ← r.table.removeOwner owner
  let generation := r.ownerGenerations.get? owner
  some
    ({ table := s.1
       pinning := r.pinning.forget owner
       ownerGenerations := r.ownerGenerations.erase owner
       generationOwners := match generation with
        | none => r.generationOwners
        | some g =>
          if r.generationOwners.get? g = some owner then r.generationOwners.erase g
          else r.generationOwners
       waiters := r.waiters }, s.2 || generation.isSome)

/-- `release`. -/
def release (r : Registry names Owner Lease) (owner : Owner) :
    Option (Registry names Owner Lease) := do
  let s ← r.removeOwner owner
  some (s.1.wakeIf s.2 owner)

/-- `release_lease`. -/
def releaseLease (r : Registry names Owner Lease) (owner : Owner) (lease : Lease) :
    Option (Registry names Owner Lease) := do
  let u ← r.pinning.unpin owner lease
  let s ← r.table.removePaths owner u.2
  some ({ r with pinning := u.1, table := s.1 }.wakeIf s.2 owner)

/-- The paths no lease of the owner pins are given up before it waits. -/
def dropIdle (r : Registry names Owner Lease) (owner : Owner) :
    Option (Registry names Owner Lease) := do
  let counts := r.pinning.pinCounts.row owner
  let idle := (r.table.pathsOf owner).keys.filter fun key => (counts.get? key).isNone
  let s ← r.table.removePaths owner idle
  some ({ r with table := s.1 }.wakeIf s.2 owner)

/-- `_unpin` at the first pass of `acquire`. -/
def unpinFirst (r : Registry names Owner Lease) (first : Bool) (owner : Owner) (lease : Lease) :
    Option (Registry names Owner Lease) :=
  if first then do
    let u ← r.pinning.unpin owner lease
    some { r with pinning := u.1 }
  else some r

/-- One pass of `acquire` under the lock: the paths are claimed and pinned, or the number of a new
waiter is returned with its blockers. -/
def acquirePass (r : Registry names Owner Lease) (owner : Owner) (lease : Lease)
    (prepared : List (LeasePath names)) (first : Bool) :
    Option (Registry names Owner Lease × Option (Nat × List Owner)) := do
  let r ← r.unpinFirst first owner lease
  let blockers := r.table.blockingOwners owner prepared
  if blockers = [] then
    let r := r.claim owner prepared [] false
    some ({ r with pinning := r.pinning.pin owner lease (prepared.map (·.key)) }, none)
  else
    let r ← r.dropIdle owner
    let s := r.waiters.registerWaiter blockers
    some ({ r with waiters := s.1 }, some (s.2, blockers))

/-- `_remove_owner` at the first pass of `replace`. -/
def releaseFirst (r : Registry names Owner Lease) (first : Bool) (owner : Owner) :
    Option (Registry names Owner Lease) :=
  if first then r.release owner else some r

/-- The other owner of a generation that is being worked on. -/
def exactOwner (r : Registry names Owner Lease) (owner : Owner) (coalesceExact : Bool)
    (generation : Generation) : Option Owner :=
  if coalesceExact then (r.generationOwners.get? generation).filter fun o => o ≠ owner else none

/-- One pass of `replace` under the lock. -/
def replacePass (r : Registry names Owner Lease) (owner : Owner) (prepared : List (LeasePath names))
    (version : List VersionRow) (coalesceExact deepDetect first : Bool) :
    Option (Registry names Owner Lease × ReplaceOutcome Owner) := do
  let r ← r.releaseFirst first owner
  match r.exactOwner owner coalesceExact (version, deepDetect) with
  | some other => some (r, .coalesced other)
  | none =>
    let blockers := r.table.blockingOwners owner prepared
    if blockers = [] then some (r.claim owner prepared version deepDetect, .claimed)
    else
      let s := r.waiters.registerWaiter blockers
      some ({ r with waiters := s.1 }, .waits s.2 blockers)

section

omit [DecidableEq Lease]

variable (r : Registry names Owner Lease) (owner : Owner) (paths : List (LeasePath names))
  (version : List VersionRow) (deepDetect : Bool)

@[simp] theorem claim_table :
    (r.claim owner paths version deepDetect).table = r.table.claim owner paths := by
  unfold claim
  split_ifs <;> rfl

@[simp] theorem claim_pinning : (r.claim owner paths version deepDetect).pinning = r.pinning := by
  unfold claim
  split_ifs <;> rfl

@[simp] theorem claim_waiters : (r.claim owner paths version deepDetect).waiters = r.waiters := by
  unfold claim
  split_ifs <;> rfl

end

end Registry

end Sunpack.PathLease
