import Mathlib.Tactic
import Sunpack.CpuBudget.Model

/-!
# Admission of jobs

`worker_loop` of `NativeJobExecutor` with what it waits for: the queues under the executor's mutex, and
the CPU budget, which is not under it. A critical section is one step, but for the wait: the predicate
is one step, and falling asleep another one, with the mutex held between them. An update of the budget
is one step; the callback that may follow it is a notice on its way. Notices are delivered in any
order, and a waiting worker may wake for no reason.

What a job does is left out, but for its credits; so are the counters that only the events print.
-/

namespace Sunpack.Executor

open CpuBudget (Options)

structure Job where
  /-- The cancel token, which is the job's own. -/
  token : Nat
  /-- `origin` is `"watch"`. -/
  watch : Bool
deriving DecidableEq, Repr

/-- Where a worker stands in `worker_loop`. -/
inductive Phase
  /-- In front of the mutex and the predicate. -/
  | awake
  /-- The predicate was false; the mutex is still held. -/
  | dozing
  /-- In the wait. -/
  | asleep
  /-- The predicate was true; the mutex is held. -/
  | admitted
  /-- With a base credit, and the mutex. -/
  | claiming
  | running (job : Job) (extra : Nat)
  /-- The job's context is destroyed. -/
  | drained (job : Job)
  /-- The base credit is released. -/
  | ended (job : Job)
  | exited
deriving DecidableEq, Repr

namespace Phase

/-- Neither in the wait, nor falling asleep, nor gone. -/
def isAwake : Phase → Bool
  | dozing | asleep | exited => false
  | _ => true

def holdsMutex : Phase → Bool
  | dozing | admitted | claiming => true
  | _ => false

def credits : Phase → Nat
  | claiming | drained _ => 1
  | running _ extra => 1 + extra
  | _ => 0

end Phase

structure State (ι : Type) where
  foreground : List Job := []
  background : List Job := []
  parked : List Job := []
  stopping : Bool := false
  reserved : Nat := 0
  phase : ι → Phase := fun _ => .awake
  /-- Calls of `notify_one` and `notify_all` that are under way. -/
  notices : Nat := 0
  broadcasts : Nat := 0

inductive Action (ι : Type)
  | evaluate (w : ι)
  | sleep (w : ι)
  | tryAcquireBase (w : ι)
  | pop (w : ι)
  | acquireExtra (w : ι) (wanted minimumGrant : Nat)
  | releaseExtra (w : ι) (count : Nat)
  | destroyContext (w : ι)
  | releaseBase (w : ι)
  /-- The job is parked for memory, or done. -/
  | finish (w : ι) (memoryRetry : Bool)
  | submit (job : Job)
  | resume (job : Job)
  | cancel (token : Nat)
  | stop
  /-- `notify_one` wakes this worker, or finds nobody asleep. -/
  | notifyOne (w : Option ι)
  | notifyAll
  | wake (w : ι)

/-! ## The budget -/

/-- What `acquire_up_to` grants. -/
def grant (capacity reserved wanted minimumGrant : Nat) : Nat :=
  if wanted = 0 then 0
  else if max 1 minimumGrant > wanted then 0
  else if reserved ≥ capacity then 0
  else if min wanted (capacity - reserved) < max 1 minimumGrant then 0
  else min wanted (capacity - reserved)

/-- What `release` leaves. -/
def afterRelease (reserved count : Nat) : Nat := if count ≥ reserved then 0 else reserved - count

namespace State

variable {ι : Type}

def queued (s : State ι) : List Job := s.foreground ++ s.background

def queuesEmpty (s : State ι) : Bool := s.foreground.isEmpty && s.background.isEmpty

def canAcquireBase (o : Options) (s : State ι) : Bool := s.reserved < o.capacity

/-- `release` of the budget. -/
def release (o : Options) (s : State ι) (count : Nat) : State ι :=
  if count = 0 then s
  else
    { s with
      reserved := afterRelease s.reserved count
      notices :=
        if o.capacityAvailable ∧ s.reserved ≥ o.capacity ∧
            afterRelease s.reserved count < o.capacity then
          s.notices + 1
        else s.notices }

def popNextJob (s : State ι) : Option (Job × State ι) :=
  match s.foreground with
  | job :: rest => some (job, { s with foreground := rest })
  | [] =>
    match s.background with
    | job :: rest => some (job, { s with background := rest })
    | [] => none

def pushBack (s : State ι) (job : Job) : State ι :=
  if job.watch then { s with background := s.background ++ [job] }
  else { s with foreground := s.foreground ++ [job] }

def pushFront (s : State ι) (job : Job) : State ι :=
  if job.watch then { s with background := job :: s.background }
  else { s with foreground := job :: s.foreground }

section

variable [DecidableEq ι]

def setPhase (s : State ι) (w : ι) (p : Phase) : State ι :=
  { s with phase := Function.update s.phase w p }

/-- Everybody in the wait is woken. -/
def wakeAll (s : State ι) : State ι :=
  { s with phase := fun w => if s.phase w = .asleep then .awake else s.phase w }

def evaluate (o : Options) (s : State ι) (w : ι) : State ι :=
  let leaves := s.stopping && s.queuesEmpty && s.parked.isEmpty
  if (!s.queuesEmpty && s.canAcquireBase o) || leaves then
    s.setPhase w (if leaves then .exited else .admitted)
  else s.setPhase w .dozing

end

end State

def QUEUE_CAPACITY : Nat := 4096

section Steps

variable {ι : Type} [Fintype ι] [DecidableEq ι]

/-- Nobody holds the mutex. -/
def State.free (s : State ι) : Bool := decide (∀ w, (s.phase w).holdsMutex = false)

def State.submit (s : State ι) (job : Job) : State ι :=
  if s.stopping then s
  else if QUEUE_CAPACITY ≤ s.foreground.length + s.background.length + s.parked.length then s
  else { s.pushBack job with notices := s.notices + 1 }

/-- A queued job is withdrawn; for any other one everybody is woken. -/
def State.cancel (s : State ι) (token : Nat) : State ι :=
  if s.foreground.any (·.token = token) then
    { s with foreground := s.foreground.eraseP (·.token = token) }
  else if s.background.any (·.token = token) then
    { s with background := s.background.eraseP (·.token = token) }
  else { s with broadcasts := s.broadcasts + 1 }

def step (o : Options) (s : State ι) : Action ι → Option (State ι)
  | .evaluate w => if s.phase w = .awake ∧ s.free then some (s.evaluate o w) else none
  | .sleep w => if s.phase w = .dozing then some (s.setPhase w .asleep) else none
  | .tryAcquireBase w =>
    if s.phase w = .admitted then
      if grant o.capacity s.reserved 1 1 = 1 then
        some { s.setPhase w .claiming with reserved := s.reserved + 1 }
      else some (s.setPhase w .awake)
    else none
  | .pop w =>
    if s.phase w = .claiming then
      match s.popNextJob with
      | some (job, s) =>
        -- hand admission forward one worker at a time
        some { s.setPhase w (.running job 0) with
          notices := if !s.queuesEmpty && s.canAcquireBase o then s.notices + 1 else s.notices }
      | none => none
    else none
  | .acquireExtra w wanted minimumGrant =>
    match s.phase w with
    | .running job extra =>
      let granted := grant o.capacity s.reserved wanted minimumGrant
      some { s.setPhase w (.running job (extra + granted)) with reserved := s.reserved + granted }
    | _ => none
  | .releaseExtra w count =>
    match s.phase w with
    | .running job extra =>
      some ((s.setPhase w (.running job (extra - min count extra))).release o (min count extra))
    | _ => none
  | .destroyContext w =>
    match s.phase w with
    | .running job extra => some ((s.setPhase w (.drained job)).release o extra)
    | _ => none
  | .releaseBase w =>
    match s.phase w with
    | .drained job => some ((s.setPhase w (.ended job)).release o 1)
    | _ => none
  | .finish w memoryRetry =>
    match s.phase w with
    | .ended job =>
      if s.free then
        some { s.setPhase w .awake with
          parked := if memoryRetry then s.parked ++ [job] else s.parked }
      else none
    | _ => none
  | .submit job => if s.free then some (s.submit job) else none
  | .resume job =>
    if s.free ∧ job ∈ s.parked then
      some { s.pushFront job with parked := s.parked.erase job, notices := s.notices + 1 }
    else none
  | .cancel token => if s.free then some (s.cancel token) else none
  | .stop =>
    if s.free then
      some (if s.stopping then s
        else { s with stopping := true, broadcasts := s.broadcasts + 1 })
    else none
  | .notifyOne w =>
    if 0 < s.notices then
      match w with
      | some w =>
        if s.phase w = .asleep then
          some { s.setPhase w .awake with notices := s.notices - 1 }
        else none
      | none =>
        if ∀ w, s.phase w ≠ .asleep then some { s with notices := s.notices - 1 } else none
    else none
  | .notifyAll =>
    if 0 < s.broadcasts then some { s.wakeAll with broadcasts := s.broadcasts - 1 } else none
  | .wake w => if s.phase w = .asleep then some (s.setPhase w .awake) else none

/-- The workers, and those who give them work. -/
def executor (ι : Type) [Fintype ι] [DecidableEq ι] (o : Options) :
    Lib.Machine (State ι) (Action ι) where
  init := {}
  step := step o

end Steps

end Sunpack.Executor
