import Sunpack.Lib.Machine

/-!
# The volume space gate

`VolumeSpaceGate` of the 7-Zip bridge: the three phases of a volume, the episode counter, the probe
permit with its owner token, and the jobs that are told about blocked and resumed episodes. Every
function here is one critical section of the source (the code between taking and releasing the gate's
`mutex_`); the text of a condition variable wait is the critical section of one of its rounds.

Left out: the query root (it only chooses the path that is sampled), the wake targets and the sink
(called outside the lock), and the clock fields (they only feed diagnostics). Counters are natural
numbers; the source's are 64 bits wide.
-/

namespace Sunpack.SpaceGate

inductive VolumeSpacePhase
  | ready
  | blocked
  | probing
deriving DecidableEq, Repr

inductive TransitionKind
  | blocked
  | status
  | resumed
deriving DecidableEq, Repr

structure VolumeSpaceTransition where
  kind : TransitionKind
  episodeId : Nat
  win32Error : Nat
  freeBytes : Nat
  queryOk : Bool
  queryError : Nat
  /-- Only a real change of writability; a late registration's catch-up event has `false`. -/
  discontinuity : Bool
  jobIds : List String
deriving DecidableEq, Repr

structure VolumeSpaceGate where
  phase : VolumeSpacePhase := .ready
  episodeId : Nat := 0
  blockedEventEmitted : Bool := false
  /-- `0` while the permit waits to be taken. -/
  probeOwnerToken : Nat := 0
  nextToken : Nat := 1
  lastWin32Error : Nat := 0
  lastFreeBytes : Nat := 0
  lastQueryOk : Bool := true
  lastQueryError : Nat := 0
  waiters : List Nat := []
  affectedJobs : List String := []
  nextWaiterToken : Nat := 1
deriving DecidableEq, Repr

/-- The kinds of a `WaitResult`; a `probe` carries the token of its lease. -/
inductive WaitResult
  | ready
  | probe (token : Nat)
  | pending
  | terminal
deriving DecidableEq, Repr

namespace VolumeSpaceGate

def ownsProbeLocked (g : VolumeSpaceGate) (token : Nat) : Bool :=
  g.phase = .probing && token ≠ 0 && g.probeOwnerToken = token

def makeTransitionLocked (g : VolumeSpaceGate) (kind : TransitionKind) (discontinuity : Bool) :
    VolumeSpaceTransition where
  kind := kind
  episodeId := g.episodeId
  win32Error := g.lastWin32Error
  freeBytes := g.lastFreeBytes
  queryOk := g.lastQueryOk
  queryError := g.lastQueryError
  discontinuity := discontinuity
  jobIds := g.affectedJobs

/-- A failed volume query is newer evidence than the sample behind the current permit, so it
revokes that permit. -/
def recordQueryFailureLocked (g : VolumeSpaceGate) (win32Error : Nat) : VolumeSpaceGate :=
  let g := { g with lastQueryOk := false, lastQueryError := win32Error }
  if g.phase ≠ .probing then g else { g with phase := .blocked, probeOwnerToken := 0 }

/-- The gate and the transitions that were generated under the lock. -/
def registerJob (g : VolumeSpaceGate) (jobId : String) :
    VolumeSpaceGate × List VolumeSpaceTransition :=
  if jobId = "" then (g, [])
  else if jobId ∈ g.affectedJobs then (g, [])
  else
    let g := { g with affectedJobs := g.affectedJobs ++ [jobId] }
    if g.phase ≠ .ready && g.blockedEventEmitted then
      (g, [{ g.makeTransitionLocked .blocked false with jobIds := [jobId] }])
    else (g, [])

def unregisterJob (g : VolumeSpaceGate) (jobId : String) : VolumeSpaceGate :=
  if jobId = "" then g
  else { g with affectedJobs := g.affectedJobs.filter (· ≠ jobId) }

def reportSpaceFailure (g : VolumeSpaceGate) (win32Error : Nat) :
    VolumeSpaceGate × List VolumeSpaceTransition :=
  let g := { g with lastWin32Error := win32Error }
  if g.phase = .ready then
    let g := { g with
      episodeId := g.episodeId + 1
      phase := .blocked
      probeOwnerToken := 0
      blockedEventEmitted := false }
    ({ g with blockedEventEmitted := true }, [g.makeTransitionLocked .blocked true])
  else (g, [])

/-- `terminal` is the answer of the caller's predicate (or of a gate that is going away). -/
def decideLocked (g : VolumeSpaceGate) (terminal : Bool) : VolumeSpaceGate × WaitResult :=
  if terminal then (g, .terminal)
  else if g.phase = .ready then (g, .ready)
  else if g.phase = .probing && g.probeOwnerToken = 0 then
    ({ g with nextToken := g.nextToken + 1, probeOwnerToken := g.nextToken }, .probe g.nextToken)
  else (g, .pending)

def tryWait (g : VolumeSpaceGate) (terminal : Bool) : VolumeSpaceGate × WaitResult :=
  { g with nextWaiterToken := g.nextWaiterToken + 1 }.decideLocked terminal

def removeWaiterLocked (g : VolumeSpaceGate) (waiter : Nat) : VolumeSpaceGate :=
  { g with waiters := g.waiters.erase waiter }

/-- The first round of `wait`: a decision, and a registered waiter if it has to sleep. -/
def waitFirst (g : VolumeSpaceGate) (terminal : Bool) : VolumeSpaceGate × WaitResult :=
  let waiter := g.nextWaiterToken
  let (g, decision) := { g with nextWaiterToken := waiter + 1 }.decideLocked terminal
  if decision = .pending then ({ g with waiters := g.waiters ++ [waiter] }, decision)
  else (g, decision)

/-- A later round of `wait`, by a waiter that slept. -/
def waitAgain (g : VolumeSpaceGate) (waiter : Nat) (terminal : Bool) :
    VolumeSpaceGate × WaitResult :=
  let (g, decision) := g.decideLocked terminal
  if decision = .pending then (g, decision) else (g.removeWaiterLocked waiter, decision)

/-- `query_free_bytes` after a query that worked. -/
def recordQuerySuccess (g : VolumeSpaceGate) (free : Nat) : VolumeSpaceGate :=
  { g with lastQueryOk := true, lastQueryError := 0, lastFreeBytes := free }

def noteQueryFailure (g : VolumeSpaceGate) (win32Error : Nat) : VolumeSpaceGate :=
  g.recordQueryFailureLocked win32Error

def poll (g : VolumeSpaceGate) (freeBytesNow : Nat) : VolumeSpaceGate :=
  let g := { g with lastFreeBytes := freeBytesNow }
  if g.phase ≠ .blocked || freeBytesNow = 0 then g
  else { g with phase := .probing, probeOwnerToken := 0 }

def settleSuccess (g : VolumeSpaceGate) (token : Nat) :
    VolumeSpaceGate × List VolumeSpaceTransition :=
  if g.ownsProbeLocked token then
    let g := { g with
      phase := .ready
      probeOwnerToken := 0
      lastWin32Error := 0
      blockedEventEmitted := false }
    (g, [g.makeTransitionLocked .resumed true])
  else (g, [])

def settleSpaceFailure (g : VolumeSpaceGate) (token win32Error : Nat) : VolumeSpaceGate :=
  if g.ownsProbeLocked token then
    { g with phase := .blocked, probeOwnerToken := 0, lastWin32Error := win32Error }
  else g

def settleInconclusive (g : VolumeSpaceGate) (token : Nat) : VolumeSpaceGate :=
  if g.ownsProbeLocked token then { g with probeOwnerToken := 0 } else g

end VolumeSpaceGate

/-! ## Leases -/

/-- How a lease is settled; `inconclusive` is also what its destructor does. -/
inductive Settlement
  | success
  | spaceFailure (win32Error : Nat)
  | inconclusive
deriving DecidableEq, Repr

/-- A `ProbeLease` that was handed out. A moved-from or settled lease does nothing any more. -/
structure ProbeLease where
  token : Nat
  settled : Bool := false
deriving DecidableEq, Repr

def VolumeSpaceGate.settle (g : VolumeSpaceGate) (token : Nat) :
    Settlement → VolumeSpaceGate × List VolumeSpaceTransition
  | .success => g.settleSuccess token
  | .spaceFailure e => (g.settleSpaceFailure token e, [])
  | .inconclusive => (g.settleInconclusive token, [])

/-! ## The system: a gate, its leases, and what it has generated -/

/-- One critical section of some thread. -/
inductive Action
  | registerJob (jobId : String)
  | unregisterJob (jobId : String)
  | reportSpaceFailure (win32Error : Nat)
  | tryWait (terminal : Bool)
  | waitFirst (terminal : Bool)
  | waitAgain (waiter : Nat) (terminal : Bool)
  | querySuccess (free : Nat)
  | queryFailure (win32Error : Nat)
  | poll (freeBytesNow : Nat)
  /-- Settles the `lease`-th lease that was ever handed out. -/
  | settle (lease : Nat) (how : Settlement)
deriving DecidableEq, Repr

/-- An action with the gate and the leases it met. -/
structure Moment where
  action : Action
  gate : VolumeSpaceGate
  leases : List ProbeLease

/-- The gate with every lease ever handed out. The rest is history: the transitions generated so
far, how many there were when each job registered, and the actions done, latest first. -/
structure World where
  gate : VolumeSpaceGate := {}
  leases : List ProbeLease := []
  generated : List VolumeSpaceTransition := []
  registeredAt : String → Nat := fun _ => 0
  history : List Moment := []

/-- Hand out the lease of a decision. -/
def World.grant (w : World) (r : VolumeSpaceGate × WaitResult) : World :=
  match r.2 with
  | .probe token => { w with gate := r.1, leases := w.leases ++ [{ token := token }] }
  | _ => { w with gate := r.1 }

/-- Publish the transitions of a critical section. -/
def World.publish (w : World) (r : VolumeSpaceGate × List VolumeSpaceTransition) : World :=
  { w with gate := r.1, generated := w.generated ++ r.2 }

/-- The effect of an action on the gate, the leases and the transitions. -/
def World.perform (w : World) : Action → World
  | .registerJob jobId =>
    let w' := w.publish (w.gate.registerJob jobId)
    if jobId ∈ w.gate.affectedJobs then w'
    else { w' with registeredAt := fun j =>
      if j = jobId then w.generated.length else w.registeredAt j }
  | .unregisterJob jobId => { w with gate := w.gate.unregisterJob jobId }
  | .reportSpaceFailure e => w.publish (w.gate.reportSpaceFailure e)
  | .tryWait terminal => w.grant (w.gate.tryWait terminal)
  | .waitFirst terminal => w.grant (w.gate.waitFirst terminal)
  | .waitAgain waiter terminal =>
    if waiter ∈ w.gate.waiters then w.grant (w.gate.waitAgain waiter terminal) else w
  | .querySuccess free => { w with gate := w.gate.recordQuerySuccess free }
  | .queryFailure e => { w with gate := w.gate.noteQueryFailure e }
  | .poll free => { w with gate := w.gate.poll free }
  | .settle i how =>
    match w.leases[i]? with
    | none => w
    | some lease =>
      if lease.settled then w
      else { w.publish (w.gate.settle lease.token how) with
        leases := w.leases.set i { lease with settled := true } }

/-- Every interleaving of critical sections is a run of this machine. -/
def machine : Lib.Machine World Action where
  init := {}
  step w a := some { w.perform a with history := ⟨a, w.gate, w.leases⟩ :: w.history }

end Sunpack.SpaceGate
