import Sunpack.PathLease.Registry
import Sunpack.Lib.Machine

/-!
# Calls of the registry

Any number of `acquire` and `replace` calls of any owners, between which the sections under the lock
are the steps. A call takes a snapshot of its paths, passes the lock, waits, and after it was woken
takes a new snapshot; every snapshot is of another file system. It may be cancelled at each of its
passes and while it waits.

`grants` is the history: what was returned to the callers and is not given back.
-/

namespace Sunpack.PathLease

open Lib

inductive Request (Owner Lease : Type)
  | acquire (owner : Owner) (paths : List Text) (lease : Lease) (absentPaths : List Text)
  | replace (owner : Owner) (paths : List Text) (coalesceExact deepDetect : Bool)

namespace Request

variable {Owner Lease : Type}

def owner : Request Owner Lease → Owner
  | acquire owner .. => owner
  | replace owner .. => owner

def paths : Request Owner Lease → List Text
  | acquire _ paths .. => paths
  | replace _ paths .. => paths

/-- The lease an `acquire` is for; a claim of `replace` is for none. -/
def lease : Request Owner Lease → Option Lease
  | acquire _ _ lease _ => some lease
  | replace .. => none

/-- `refresh` of the first snapshot. -/
def refreshFirst : Request Owner Lease → Bool
  | acquire _ _ _ absentPaths => ! absentPaths.isEmpty
  | replace _ _ coalesceExact _ => coalesceExact

end Request

inductive Phase (Owner : Type)
  /-- Before a pass of the lock. -/
  | ready
  /-- The waiter, the length of the history and the blockers when it was registered. -/
  | waiting (waiter since : Nat) (blockers : List Owner)
  /-- The wait ended with an exception; the waiter is still registered. -/
  | leaving (waiter : Nat)

structure Call (names : PathNames) (Owner Lease : Type) where
  request : Request Owner Lease
  prepared : List (LeasePath names)
  version : List VersionRow
  first : Bool
  phase : Phase Owner

/-- A lease of `acquire`, or with no lease id a claim of `replace`, and what was returned for it. -/
structure Grant (names : PathNames) (Owner Lease : Type) where
  owner : Owner
  lease : Option Lease
  paths : List (LeasePath names)

/-! ## What is given back -/

section Holdings

variable {names : PathNames} {Owner Lease : Type} [DecidableEq Owner] [DecidableEq Lease]

/-- The key is in a lease of the owner. -/
def leased (grants : List (Grant names Owner Lease)) (owner : Owner) (key : Text) : Bool :=
  grants.any fun g => g.owner = owner ∧ g.lease.isSome ∧ key ∈ g.paths.map (·.key)

/-- A lease is returned to the registry. -/
def giveBack (grants : List (Grant names Owner Lease)) (owner : Owner) (lease : Lease) :
    List (Grant names Owner Lease) :=
  grants.filter fun g => ¬ (g.owner = owner ∧ g.lease = some lease)

/-- The claims of an owner lose some paths. -/
def shrinkClaims (grants : List (Grant names Owner Lease)) (owner : Owner) (kept : Text → Bool) :
    List (Grant names Owner Lease) :=
  grants.map fun g =>
    if g.owner = owner ∧ g.lease = none then { g with paths := g.paths.filter fun p => kept p.key }
    else g

/-- Before its owner waits, a claim is given up but for the paths of leases. -/
def giveUpIdle (grants : List (Grant names Owner Lease)) (owner : Owner) :
    List (Grant names Owner Lease) :=
  shrinkClaims grants owner (leased grants owner)

/-- The paths of a lease are released, unless another lease has them. -/
def releaseGrant (grants : List (Grant names Owner Lease)) (owner : Owner) (lease : Lease) :
    List (Grant names Owner Lease) :=
  let rest := giveBack grants owner lease
  shrinkClaims rest owner fun key =>
    leased rest owner key || ! grants.any fun g =>
      g.owner = owner ∧ g.lease = some lease ∧ key ∈ g.paths.map (·.key)

def releaseGrants (grants : List (Grant names Owner Lease)) (owner : Owner) :
    List (Grant names Owner Lease) :=
  grants.filter fun g => g.owner ≠ owner

end Holdings

/-! ## Steps -/

structure World (names : PathNames) (Owner Lease : Type) where
  registry : Registry names Owner Lease := {}
  calls : Dict Nat (Call names Owner Lease) := ∅
  grants : List (Grant names Owner Lease) := []

inductive Action (Owner Lease : Type)
  | start (call : Nat) (request : Request Owner Lease) (fs : FileSystem)
  /-- From the check of the cancellation to the end of the locked section. -/
  | pass (call : Nat) (cancelled : Bool)
  | resume (call : Nat) (fs : FileSystem)
  | cancel (call : Nat)
  | leave (call : Nat)
  | releaseLease (owner : Owner) (lease : Lease)
  | release (owner : Owner)

/-- The errors of an `acquire` whose destination is there. -/
inductive AbsentError
  | inaccessible (path : Text)
  | exists (path : Text)

/-- The check of the absent paths. -/
def absentError {names : PathNames} (absentPaths : List Text) (prepared : List (LeasePath names)) :
    Option AbsentError :=
  let absentKeys := absentPaths.map fun path => names.pathKey (names.normalized path)
  prepared.findSome? fun path =>
    if path.key ∈ absentKeys ∧ path.missing = false then
      if path.versionRow = none then some (.inaccessible path.path) else some (.exists path.path)
    else none

variable {names : PathNames} {Owner Lease : Type} [DecidableEq Owner] [DecidableEq Lease]

namespace World

def snapshot (w : World names Owner Lease) (request : Request Owner Lease) (fs : FileSystem)
    (refresh first : Bool) : Call names Owner Lease :=
  let prepared := snapshotPaths w.registry.table.entriesByKey fs refresh request.paths
  { request := request
    prepared := prepared
    version := match request with
      | .replace _ _ true _ => leaseOwnershipVersion prepared
      | _ => []
    first := first
    phase := .ready }

/-- A pass of a call that is not cancelled. -/
def pass (w : World names Owner Lease) (id : Nat) (call : Call names Owner Lease) :
    Option (World names Owner Lease) :=
  match call.request with
  | .acquire owner _ lease absentPaths =>
    if (absentError absentPaths call.prepared).isSome then
      some { w with calls := w.calls.erase id }
    else do
      let grants := if call.first then giveBack w.grants owner lease else w.grants
      let s ← w.registry.acquirePass owner lease call.prepared call.first
      match s.2 with
      | none =>
        some
          { registry := s.1
            calls := w.calls.erase id
            grants := grants ++ [⟨owner, some lease, call.prepared⟩] }
      | some waits =>
        let phase := .waiting waits.1 s.1.table.gaveUp.length waits.2
        some
          { registry := s.1
            calls := w.calls.set id { call with first := false, phase := phase }
            grants := giveUpIdle grants owner }
  | .replace owner _ coalesceExact deepDetect => do
    let grants := if call.first then releaseGrants w.grants owner else w.grants
    let s ← w.registry.replacePass owner call.prepared call.version coalesceExact deepDetect
      call.first
    match s.2 with
    | .claimed =>
      some
        { registry := s.1
          calls := w.calls.erase id
          grants := grants ++ [⟨owner, none, call.prepared⟩] }
    | .coalesced _ => some { registry := s.1, calls := w.calls.erase id, grants := grants }
    | .waits waiter blockers =>
      let phase := .waiting waiter s.1.table.gaveUp.length blockers
      some
        { registry := s.1
          calls := w.calls.set id { call with first := false, phase := phase }
          grants := grants }

def step (w : World names Owner Lease) : Action Owner Lease → Option (World names Owner Lease)
  | .start id request fs =>
    match w.calls.get? id with
    | some _ => none
    | none =>
      some { w with calls := w.calls.set id (w.snapshot request fs request.refreshFirst true) }
  | .pass id cancelled =>
    match w.calls.get? id with
    | none => none
    | some call =>
      match call.phase with
      | .ready => if cancelled then some { w with calls := w.calls.erase id } else w.pass id call
      | _ => none
  | .resume id fs =>
    match w.calls.get? id with
    | none => none
    | some call =>
      match call.phase with
      | .waiting waiter _ _ =>
        if w.registry.waiters.futures[waiter]? = some .result then
          some { w with calls := w.calls.set id (w.snapshot call.request fs true call.first) }
        else none
      | _ => none
  | .cancel id =>
    match w.calls.get? id with
    | none => none
    | some call =>
      match call.phase with
      | .waiting waiter _ _ =>
        some
          { w with
            registry := { w.registry with waiters := w.registry.waiters.cancelWaiter waiter }
            calls := w.calls.set id { call with phase := .leaving waiter } }
      | _ => none
  | .leave id =>
    match w.calls.get? id with
    | none => none
    | some call =>
      match call.phase with
      | .leaving waiter =>
        some
          { w with
            registry := { w.registry with waiters := w.registry.waiters.unregisterWaiter waiter }
            calls := w.calls.erase id }
      | _ => none
  | .releaseLease owner lease => do
    let registry ← w.registry.releaseLease owner lease
    some { w with registry := registry, grants := releaseGrant w.grants owner lease }
  | .release owner => do
    let registry ← w.registry.release owner
    some { w with registry := registry, grants := releaseGrants w.grants owner }

end World

def machine (names : PathNames) (Owner Lease : Type) [DecidableEq Owner] [DecidableEq Lease] :
    Machine (World names Owner Lease) (Action Owner Lease) where
  init := {}
  step := World.step

end Sunpack.PathLease
