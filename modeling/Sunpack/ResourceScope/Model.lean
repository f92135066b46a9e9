import Mathlib.Tactic
import Sunpack.Lib.Machine

/-!
# Task resource scopes

`TaskResourceScope` of `resource_lifecycle.py` and the registry it releases its resources through.
An action is what one thread does while it holds the lock, so a call of `close` or `aclose` is a list
of actions between which anything may happen; the release callbacks run without the lock. The files
of operations and resources, the history and the descriptions of records are left out.
-/

namespace Sunpack.ResourceScope

open Lib

abbrev ResourceId := Nat

inductive ScopeState
  | active
  | quiescing
  | closed
deriving DecidableEq, Repr

def ScopeState.value : ScopeState → String
  | .active => "active"
  | .quiescing => "quiescing"
  | .closed => "closed"

/-- Who runs a release callback: a call of `close` or `aclose`, or anybody else. -/
inductive Releaser
  | call (index : Nat)
  | other
deriving DecidableEq, Repr

/-- The states of the records in the registry; a released record has left it. -/
inductive ResourceState
  | active
  | releasing (releaser : Releaser)
  | releaseFailed
deriving DecidableEq, Repr

/-- How far a call of `close` or `aclose` has come. -/
inductive Phase
  /-- `close` sleeps on the condition. -/
  | waiting
  /-- `aclose` awaits its event. -/
  | awaiting (set nonblocking : Bool)
  /-- In front of `_finish_close`. -/
  | checking
  /-- `_release_records` has these left. -/
  | releasing (todo : List ResourceId) (failed : Bool)
  | inCallback (id : ResourceId) (todo : List ResourceId) (failed : Bool)
  | returned
  | raised
deriving DecidableEq, Repr

structure State where
  taskId : String
  scope : ScopeState := .active
  resourceIds : List ResourceId := []
  activeOperations : Nat := 0
  /-- The operations of their own that the sleeping calls of `begin_promotion` allow. -/
  promotions : List Nat := []
  resources : ResourceId → Option ResourceState := fun _ => none
  calls : List Phase := []
  /-- All resources that were ever registered, and how often each was released. -/
  registered : List ResourceId := []
  releases : ResourceId → Nat := fun _ => 0

namespace State

/-! ## Operations and resources -/

def enterOperation (s : State) : Except String State :=
  if s.scope = .active then .ok { s with activeOperations := s.activeOperations + 1 }
  else
    .error ("task operation entered after quiesce: " ++ s.taskId ++ " (" ++ s.scope.value ++ ")")

/-- Without operations the events of `_async_idle_waiters` are set. -/
def wakeIdle : Phase → Phase
  | .awaiting _ nonblocking => .awaiting true nonblocking
  | phase => phase

def exitOperation (s : State) : State :=
  let s := { s with activeOperations := s.activeOperations - 1 }
  if s.activeOperations = 0 then { s with calls := s.calls.map wakeIdle } else s

def register (s : State) (kind : String) (id : ResourceId) : Except String State :=
  if s.scope = .active then
    .ok
      { s with
        resourceIds := s.resourceIds ++ [id]
        resources := Function.update s.resources id (some .active)
        registered := s.registered ++ [id] }
  else
    .error ("task " ++ s.taskId ++ " cannot register " ++ kind ++ " while " ++ s.scope.value)

/-! ## Promotions -/

def beginPromotion (s : State) (ownOperations : Nat) (nonblocking : Bool) :
    Except String State :=
  if s.scope ≠ .active then
    .error ("task " ++ s.taskId ++ " cannot enter promotion while " ++ s.scope.value)
  else if ownOperations < s.activeOperations ∧ nonblocking then
    .error ("task " ++ s.taskId ++ " still has " ++
      toString (s.activeOperations - ownOperations) ++ " concurrent operations")
  else if ownOperations < s.activeOperations then
    .ok { s with scope := .quiescing, promotions := s.promotions ++ [ownOperations] }
  else .ok { s with scope := .quiescing }

def endPromotion (s : State) : State :=
  if s.scope = .quiescing then { s with scope := .active } else s

/-! ## Releases -/

/-- The first half of `_release_resource`: whether the callback is to run. -/
def startRelease (s : State) (releaser : Releaser) (id : ResourceId) : Option State :=
  match s.resources id with
  | none => none
  | some (.releasing _) => none
  | some _ =>
    some { s with resources := Function.update s.resources id (some (.releasing releaser)) }

/-- The second half, after the callback has returned or raised. -/
def finishRelease (s : State) (id : ResourceId) (ok : Bool) : State :=
  if ok then
    { s with
      resources := Function.update s.resources id none
      resourceIds := s.resourceIds.erase id
      releases := Function.update s.releases id (s.releases id + 1) }
  else { s with resources := Function.update s.resources id (some .releaseFailed) }

/-! ## Closing -/

def setPhase (s : State) (index : Nat) (phase : Phase) : State :=
  { s with calls := s.calls.set index phase }

/-- The first lock of `close`, up to its return, its failure or its sleep. -/
def close (s : State) (nonblocking : Bool) : State :=
  if s.scope = .closed then { s with calls := s.calls ++ [.returned] }
  else
    { s with
      scope := .quiescing
      calls := s.calls ++
        [if s.activeOperations = 0 then .checking else if nonblocking then .raised else .waiting] }

/-- The first lock of `aclose`. -/
def aclose (s : State) (nonblocking : Bool) : State :=
  if s.scope = .closed then { s with calls := s.calls ++ [.returned] }
  else
    { s with
      scope := .quiescing
      calls := s.calls ++
        [if s.activeOperations = 0 then .checking else .awaiting false nonblocking] }

/-- The records that `_finish_close` releases, the last one first. -/
def records (s : State) : List ResourceId :=
  (s.resourceIds.filter fun id => (s.resources id).isSome).reverse

/-- The next thing that a call does, unless it sleeps or is over; `ok` is how its callback ends. -/
def advance (s : State) (index : Nat) (ok : Bool) : Phase → Option State
  | .waiting => if s.activeOperations = 0 then some (s.setPhase index .checking) else none
  | .awaiting set nonblocking =>
    if nonblocking then
      some (s.setPhase index (if s.activeOperations = 0 then .checking else .raised))
    else if set then some (s.setPhase index .checking)
    else none
  | .checking =>
    some (s.setPhase index (if s.activeOperations = 0 then .releasing s.records false else .raised))
  | .releasing (id :: todo) failed =>
    match s.startRelease (.call index) id with
    | none => some (s.setPhase index (.releasing todo failed))
    | some s => some (s.setPhase index (.inCallback id todo failed))
  | .inCallback id todo failed =>
    some ((s.finishRelease id ok).setPhase index (.releasing todo (failed || !ok)))
  | .releasing [] failed =>
    if failed || !s.resourceIds.isEmpty then some (s.setPhase index .raised)
    else some ({ s with scope := .closed }.setPhase index .returned)
  | .returned => none
  | .raised => none

end State

/-! ## The machine -/

inductive Action
  | enterOperation
  | exitOperation
  | register (kind : String) (id : ResourceId)
  | beginPromotion (ownOperations : Nat) (nonblocking : Bool)
  /-- A sleeping call of `begin_promotion` goes on. -/
  | promote (ownOperations : Nat)
  | endPromotion
  | close (nonblocking : Bool)
  | aclose (nonblocking : Bool)
  | advance (index : Nat) (ok : Bool)
  /-- A task is cancelled while it awaits its event. -/
  | cancel (index : Nat)
  /-- Somebody else releases a resource. -/
  | startRelease (id : ResourceId)
  | finishRelease (id : ResourceId) (ok : Bool)

/-- A call that raises leaves the state as it is. -/
def State.orRaise (s : State) : Except String State → State
  | .ok s' => s'
  | .error _ => s

def State.step (s : State) : Action → Option State
  | .enterOperation => some (s.orRaise s.enterOperation)
  | .exitOperation => if 0 < s.activeOperations then some s.exitOperation else none
  | .register kind id => if id ∈ s.registered then none else some (s.orRaise (s.register kind id))
  | .beginPromotion ownOperations nonblocking =>
    some (s.orRaise (s.beginPromotion ownOperations nonblocking))
  | .promote ownOperations =>
    if ownOperations ∈ s.promotions ∧ s.activeOperations ≤ ownOperations then
      some { s with promotions := s.promotions.erase ownOperations }
    else none
  | .endPromotion => some s.endPromotion
  | .close nonblocking => some (s.close nonblocking)
  | .aclose nonblocking => some (s.aclose nonblocking)
  | .advance index ok => s.calls[index]?.bind (s.advance index ok)
  | .cancel index =>
    match s.calls[index]? with
    | some (.awaiting _ _) => some (s.setPhase index .raised)
    | _ => none
  | .startRelease id => s.startRelease .other id
  | .finishRelease id ok =>
    if s.resources id = some (.releasing .other) then some (s.finishRelease id ok) else none

def machine (taskId : String) : Machine State Action where
  init := { taskId := taskId }
  step := State.step

/-- No promotion ends while a call of `close` or `aclose` is under way. -/
def Undisturbed (s : State) : Action → Prop
  | .endPromotion => ∀ phase ∈ s.calls, phase = .returned ∨ phase = .raised
  | _ => True

end Sunpack.ResourceScope
