import Sunpack.Lib.Machine
import Sunpack.Usn.Broker

/-!
# The lifetimes of the broker

`serve_watch_lifetimes` with its workers. A step is one access to what the threads share: the two counters,
`ever_had_lease`, the two events and the pending accept. `serve_client` is here by what it does to the
lease: a client says hello at any time, and the loop ends at any time.
-/

namespace Sunpack.Usn.Lifetimes

open Lib

def maxConnectedClients : Nat := 64

/-! ## Counters of a machine word -/

def fetchAdd (n : Nat) : Nat := (n + 1) % 2 ^ 64

def fetchSub (n : Nat) : Nat := (n + (2 ^ 64 - 1)) % 2 ^ 64

theorem fetchAdd_eq {n : Nat} (h : n < maxConnectedClients) : fetchAdd n = n + 1 := by
  unfold maxConnectedClients at h
  unfold fetchAdd
  omega

theorem fetchSub_eq {n : Nat} (h : 0 < n) (hmax : n ≤ maxConnectedClients) : fetchSub n = n - 1 := by
  unfold maxConnectedClients at hmax
  unfold fetchSub
  omega

/-! ## The state -/

/-- Where a worker stands. `lease` is `active` of its guard. -/
inductive Worker
  | serving (lease : Bool)
  /-- In `acquire`, after the store of `ever_had_lease`. -/
  | stored
  /-- In `acquire`, after the addition. -/
  | added
  /-- In the drop of the guard, after the subtraction. -/
  | released
  /-- `serve_client` has returned. -/
  | left
  /-- No longer among the connected clients. -/
  | uncounted
  | finished
  deriving DecidableEq

namespace Worker

def holdsLease : Worker → Bool
  | serving lease => lease
  | added => true
  | _ => false

/-- Not yet taken off the connected clients. -/
def connected : Worker → Bool
  | uncounted | finished => false
  | _ => true

/-- `SetEvent` of `state_changed` comes next. -/
def signalling : Worker → Bool
  | added | released | uncounted => true
  | _ => false

/-- A hello has been taken. -/
def greeted : Worker → Bool
  | serving lease => lease
  | stored | added | released => true
  | _ => false

theorem connected_of_holdsLease {w : Worker} (h : w.holdsLease = true) : w.connected = true := by
  cases w <;> simp_all [holdsLease, connected]

end Worker

/-- A pipe that waits for a client. `pending` is that of `PendingPipeAccept`, and an accept that is not
pending is signalled at once. -/
structure Accept where
  pending : Bool
  signalled : Bool
  deriving DecidableEq

/-- Why the loop has ended. The result is an error for the last two. -/
inductive Ending
  | idle
  | stopped
  | failed
  /-- The client is counted, but there is no thread for it. -/
  | spawnFailed
  deriving DecidableEq

/-- Where the main thread stands, with the values it has read in this round. -/
inductive Phase
  | top
  | leasesRead (leases : Nat)
  | clientsRead (leases clients : Nat)
  | hadRead (leases clients : Nat) (hadLease : Bool)
  | waiting
  /-- With the pipe of a client. -/
  | taken
  | counted
  | ending (why : Ending)
  | joining (why : Ending)
  | returned (why : Ending)
  deriving DecidableEq

namespace Phase

/-- What is counted beyond the workers. -/
def extra : Phase → Nat
  | counted | ending .spawnFailed | joining .spawnFailed | returned .spawnFailed => 1
  | _ => 0

def ended : Phase → Option Ending
  | ending why | joining why | returned why => some why
  | _ => none

end Phase

structure State where
  leases : Nat
  clients : Nat
  everHadLease : Bool
  changed : Bool
  stop : Bool
  pending : Option Accept
  workers : List Worker
  phase : Phase

/-- How `PendingPipeAccept::start` ends. -/
inductive Start
  | pending
  | connected
  | failed

inductive Action
  | readLeases
  | readClients
  | readHad
  | decide (start : Start)
  /-- `finished` is the success of `GetOverlappedResult`, for a wait that an accept ends. -/
  | wake (finished : Bool)
  | waitFailed
  | count
  | spawn (spawned : Bool)
  | close
  | join
  /-- A client connects to the pending pipe. -/
  | connect
  /-- The control handler of the service. -/
  | control
  | request (worker : Nat) (request : Request)
  | leave (worker : Nat)
  | proceed (worker : Nat)

namespace State

def init : State := ⟨0, 0, false, false, false, none, [], .top⟩

/-! ## The main thread -/

/-- The finished workers are given up first. -/
def readLeases (s : State) : Option State :=
  match s.phase with
  | .top => some
      { s with workers := s.workers.filter (· ≠ .finished), phase := .leasesRead s.leases }
  | _ => none

def readClients (s : State) : Option State :=
  match s.phase with
  | .leasesRead leases => some { s with phase := .clientsRead leases s.clients }
  | _ => none

def readHad (s : State) : Option State :=
  match s.phase with
  | .clientsRead leases clients => some { s with phase := .hadRead leases clients s.everHadLease }
  | _ => none

def start (s : State) : Start → State
  | .pending => { s with pending := some ⟨true, false⟩, phase := .waiting }
  | .connected => { s with pending := some ⟨false, true⟩, phase := .waiting }
  | .failed => { s with phase := .ending .failed }

def decide (s : State) (how : Start) : Option State :=
  match s.phase with
  | .hadRead leases clients hadLease =>
    some <|
      if hadLease = true ∧ leases = 0 ∧ clients = 0 then { s with phase := .ending .idle }
      else if clients < maxConnectedClients ∧ s.pending = none then s.start how
      else { s with phase := .waiting }
  | _ => none

/-- The handles of the wait, by whether they are signalled. -/
def handles (s : State) : List Bool :=
  match s.pending with
  | some accept => [s.stop, accept.signalled, s.changed]
  | none => [s.stop, s.changed]

/-- `finish` of the accept. -/
def finish (s : State) (accept : Accept) (finished : Bool) : State :=
  if accept.pending = true ∧ finished = false then
    { s with pending := none, phase := .ending .failed }
  else { s with pending := none, phase := .taken }

/-- The wait returns the first handle that is signalled, and resets `state_changed` if it is that. -/
def wake (s : State) (finished : Bool) : Option State :=
  match s.phase, s.handles.findIdx? id, s.pending with
  | .waiting, some 0, _ => some { s with phase := .ending .stopped }
  | .waiting, some 1, some accept => some (s.finish accept finished)
  | .waiting, some _, _ => some { s with changed := false, phase := .top }
  | _, _, _ => none

def waitFailed (s : State) : Option State :=
  match s.phase with
  | .waiting => some { s with phase := .ending .failed }
  | _ => none

def count (s : State) : Option State :=
  match s.phase with
  | .taken => some { s with clients := fetchAdd s.clients, phase := .counted }
  | _ => none

def spawn (s : State) (spawned : Bool) : Option State :=
  match s.phase with
  | .counted =>
    some <|
      if spawned then { s with workers := s.workers ++ [.serving false], phase := .top }
      else { s with phase := .ending .spawnFailed }
  | _ => none

/-- However the loop has ended, the workers are stopped and the accept is cancelled. -/
def close (s : State) : Option State :=
  match s.phase with
  | .ending why => some { s with stop := true, pending := none, phase := .joining why }
  | _ => none

def join (s : State) : Option State :=
  match s.phase with
  | .joining why =>
    if ∀ w ∈ s.workers, w = .finished then some { s with phase := .returned why } else none
  | _ => none

/-! ## The others -/

def connect (s : State) : Option State :=
  match s.pending with
  | some ⟨true, false⟩ => some { s with pending := some ⟨true, true⟩ }
  | _ => none

def control (s : State) : Option State := some { s with stop := true }

def setWorker (s : State) (i : Nat) (w : Worker) : State := { s with workers := s.workers.set i w }

/-- A valid hello acquires the lease, once. -/
def request (s : State) (i : Nat) (request : Request) : Option State :=
  match s.workers[i]? with
  | some (.serving lease) =>
    some <|
      if requestShapeIsValid request = true ∧ request.opcode = .hello ∧ lease = false then
        { s.setWorker i .stored with everHadLease := true }
      else s
  | _ => none

/-- `serve_client` ends, and drops its guard. -/
def leave (s : State) (i : Nat) : Option State :=
  match s.workers[i]? with
  | some (.serving true) => some { s.setWorker i .released with leases := fetchSub s.leases }
  | some (.serving false) => some (s.setWorker i .left)
  | _ => none

def proceed (s : State) (i : Nat) : Option State :=
  match s.workers[i]? with
  | some .stored => some { s.setWorker i .added with leases := fetchAdd s.leases }
  | some .added => some { s.setWorker i (.serving true) with changed := true }
  | some .released => some { s.setWorker i .left with changed := true }
  | some .left => some { s.setWorker i .uncounted with clients := fetchSub s.clients }
  | some .uncounted => some { s.setWorker i .finished with changed := true }
  | _ => none

end State

def step (s : State) : Action → Option State
  | .readLeases => s.readLeases
  | .readClients => s.readClients
  | .readHad => s.readHad
  | .decide start => s.decide start
  | .wake finished => s.wake finished
  | .waitFailed => s.waitFailed
  | .count => s.count
  | .spawn spawned => s.spawn spawned
  | .close => s.close
  | .join => s.join
  | .connect => s.connect
  | .control => s.control
  | .request i request => s.request i request
  | .leave i => s.leave i
  | .proceed i => s.proceed i

def service : Machine State Action := ⟨State.init, step⟩

end Sunpack.Usn.Lifetimes
