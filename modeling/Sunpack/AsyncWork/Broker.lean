import Sunpack.AsyncWork.StageQueue
import Sunpack.AsyncWork.RequestOrder
import Sunpack.Lib.Semaphore
import Sunpack.Lib.Machine

/-!
# The work broker

`AsyncWorkBroker` of `async_work.py` with its event loop, its executor threads and its callers. The
event loop runs one section at a time; `dispatch` is left between two statements where an executor
thread may act (`submit` may have queued the call when it raises). A call of `run` that finds the
semaphore locked waits in a task of its own, which is cancelled by the token or with the call.

A scheduled `_cancel_pending` may run any time after its token was cancelled, and a submission may
fail at any time, so the executor's shutdown, the idle event and the callback for a changed state are
left out. `str.lower` is a parameter; results and exceptions are `α` and `ε`.
-/

namespace Sunpack.AsyncWork

open Lib

inductive Future (α ε : Type)
  | pending
  | result (a : α)
  | exception (e : ε)
  | cancelled

/-- What the thread that claimed an item does. -/
inductive Worker (α ε : Type)
  | none
  | claimed
  | running
  /-- The completion is scheduled. -/
  | finished (outcome : Except ε α)

inductive Place
  | queued
  | active
  | done
deriving DecidableEq

/-- An admitted item, with its future and its claim, and what has become of it. -/
structure Job (α ε : Type) where
  item : WorkItem
  future : Future α ε := .pending
  claimed : Bool := false
  /-- Its call is in the queue of the executor. -/
  called : Bool := false
  worker : Worker α ε := .none
  place : Place := .queued
  /-- How often the operation was begun. -/
  starts : Nat := 0
  /-- How often the future was settled. -/
  settlements : Nat := 0

structure RequestQueue where
  jobs : StageWorkQueue := {}
  origin : Origin := .foreground

structure AsyncWorkBroker where
  threadCapacity : Nat
  executorCapacity : Nat
  maxPendingJobs : Nat
  queues : Dict Text RequestQueue := ∅
  requestOrder : RequestOrder := {}
  pendingJobs : Int := 0
  pendingSlots : Semaphore Nat
  active : Int := 0
  sequence : Nat := 0
  closed : Bool := false

/-- The arguments of `run`, and what it finds in its context. -/
structure Call where
  requestId : Text
  /-- The task of the current resource scope. -/
  scope : Option Text
  fileId : Text
  stage : Text
  origin : Text
  token : Token

inductive Admission
  | created (cancelled : Bool)
  | blocked (cancelled : Bool)
  | acquired
  | aborted
deriving DecidableEq

/-- A call that waits for its slot. -/
structure Admitting where
  call : Call
  cancelled : Bool := false
  admission : Admission := .created false

/-- Where the event loop is. -/
inductive Loop (ε : Type)
  | idle
  | dispatching
  | submitting (sequence : Nat)
  /-- `submit` has raised. -/
  | rejected (sequence : Nat) (error : ε)

structure World (α ε : Type) extends AsyncWorkBroker where
  cancelled : List Token := []
  calls : Dict Nat Admitting := ∅
  jobs : Dict Nat (Job α ε) := ∅
  loop : Loop ε := .idle
  /-- A `KeyError` or the like was raised. -/
  crashed : Bool := false
  /-- The largest capacity that was in force. -/
  peak : Nat := threadCapacity

variable {α ε : Type}

/-- `future.cancel`, `set_result` and `set_exception` behind a look at `done`. -/
def Job.settle (j : Job α ε) (future : Future α ε) : Job α ε :=
  match j.future with
  | .pending => { j with future := future, settlements := j.settlements + 1 }
  | _ => j

/-- The item leaves the broker before it is active. -/
def Job.cancel (j : Job α ε) : Job α ε := { j.settle .cancelled with place := .done }

/-- The item leaves the broker after it was active. -/
def Job.finish (j : Job α ε) (future : Future α ε) : Job α ε :=
  { j.settle future with place := .done, worker := .none }

def Job.isCancelled (j : Job α ε) : Bool :=
  match j.future with
  | .cancelled => true
  | _ => false

namespace Call

def requestKey (c : Call) : Text :=
  if c.requestId ≠ [] then c.requestId
  else c.scope.getD (if c.fileId ≠ [] then c.fileId else "default".toList)

def effectiveOrigin (lower : Text → Text) (c : Call) : Origin :=
  if lower c.origin = "watch".toList then .watch else .foreground

def item (c : Call) (sequence : Nat) : WorkItem where
  context :=
    ⟨c.requestKey, if c.fileId ≠ [] then c.fileId else c.requestKey, c.stage⟩
  token := c.token
  sequence := sequence

end Call

namespace World

def crash (w : World α ε) : World α ε := { w with crashed := true }

def update (w : World α ε) (sequence : Nat) (f : Job α ε → Job α ε) : World α ε :=
  match w.jobs.get? sequence with
  | none => w
  | some j => { w with jobs := w.jobs.set sequence (f j) }

def release (w : World α ε) : World α ε := { w with pendingSlots := w.pendingSlots.release }

def cancelToken (w : World α ε) (token : Token) : World α ε :=
  { w with cancelled := token :: w.cancelled }

/-- A queued item is cancelled: its future and its slot. -/
def cancelItem (w : World α ε) (item : WorkItem) : World α ε :=
  (w.update item.sequence Job.cancel).release

/-! ## Admission -/

/-- The queue of a request, which is put into the order if it is new. -/
def requestQueue (w : World α ε) (key : Text) (origin : Origin) :
    Option (RequestOrder × RequestQueue) :=
  match w.queues.get? key with
  | none => some (w.requestOrder.append key origin, { origin := origin })
  | some queue =>
    if origin = .foreground && queue.origin = .watch then
      (w.requestOrder.promote key).map fun order => (order, { queue with origin := .foreground })
    else some (w.requestOrder, queue)

def enqueue (lower : Text → Text) (w : World α ε) (c : Call) : World α ε :=
  let sequence := w.sequence + 1
  let item := c.item sequence
  match w.requestQueue c.requestKey (c.effectiveOrigin lower) with
  | none => w.crash
  | some (order, queue) =>
    let queue := { queue with jobs := queue.jobs.append lower item }
    { w with
      sequence := sequence
      requestOrder := order
      queues := w.queues.set c.requestKey queue
      pendingJobs := w.pendingJobs + 1
      jobs := w.jobs.set sequence { item := item }
      loop := .dispatching }

/-- The caller has a slot. -/
def enter (lower : Text → Text) (w : World α ε) (c : Call) : World α ε :=
  if w.closed then w.release else w.enqueue lower c

def run (lower : Text → Text) (w : World α ε) (id : Nat) (c : Call) : World α ε :=
  if w.closed || w.cancelled.contains c.token then w
  else if w.pendingSlots.locked then { w with calls := w.calls.set id { call := c } }
  else { w with pendingSlots := w.pendingSlots.acquire }.enter lower c

def setAdmission (w : World α ε) (id : Nat) (a : Admitting) (admission : Admission) : World α ε :=
  { w with calls := w.calls.set id { a with admission := admission } }

/-- The next step of an admission task, `acquire` of the semaphore. -/
def stepAdmission (w : World α ε) (id : Nat) : Option (World α ε) :=
  (w.calls.get? id).bind fun a =>
    match a.admission with
    | .created true => some (w.setAdmission id a .aborted)
    | .created false =>
      if w.pendingSlots.locked then
        some ({ w with pendingSlots := w.pendingSlots.enqueue id }.setAdmission id a (.blocked false))
      else some ({ w with pendingSlots := w.pendingSlots.acquire }.setAdmission id a .acquired)
    | .blocked cancelled =>
      match w.pendingSlots.waiter id with
      | some .granted =>
        if cancelled then
          some ({ w with pendingSlots := w.pendingSlots.revoke id }.setAdmission id a .aborted)
        else some ({ w with pendingSlots := w.pendingSlots.accept id }.setAdmission id a .acquired)
      | some .cancelled =>
        some ({ w with pendingSlots := w.pendingSlots.leave id }.setAdmission id a .aborted)
      | _ => none
    | _ => none

/-- `cancel` of an admission task. -/
def cancelAdmission (w : World α ε) (id : Nat) (a : Admitting) : World α ε :=
  match a.admission with
  | .created _ => w.setAdmission id a (.created true)
  | .blocked _ =>
    { w with pendingSlots := w.pendingSlots.cancel id }.setAdmission id a (.blocked true)
  | admission => w.setAdmission id a admission

/-- `run` goes on after its admission task. -/
def resume (lower : Text → Text) (w : World α ε) (id : Nat) : Option (World α ε) :=
  (w.calls.get? id).bind fun a =>
    let w := { w with calls := w.calls.erase id }
    match a.admission with
    | .acquired =>
      -- the slot was taken, but the call was cancelled before it heard of it
      if a.cancelled || w.cancelled.contains a.call.token then some w.release
      else some (w.enter lower a.call)
    | .aborted => some w
    | _ => none

/-! ## Dispatch -/

/-- One turn of the loop of `_dispatch`, up to the submission. -/
def dispatch (w : World α ε) : World α ε :=
  if w.active < w.threadCapacity && w.requestOrder.nonempty then
    match w.requestOrder.popleft with
    | none => w.crash
    | some (requestId, order) =>
      match w.queues.get? requestId with
      | none => { w with requestOrder := order }
      | some queue =>
        if queue.jobs.size = 0 then
          { w with requestOrder := order, queues := w.queues.erase requestId }
        else
          match queue.jobs.takePrioritized w.sequence with
          | none => w.crash
          | some (item, jobs) =>
            let pendingJobs := w.pendingJobs - 1
            let queue := { queue with jobs := jobs }
            let w :=
              if jobs.size ≠ 0 then
                { w with
                  pendingJobs := pendingJobs
                  requestOrder := order.append requestId queue.origin
                  queues := w.queues.set requestId queue }
              else
                { w with
                  pendingJobs := pendingJobs
                  requestOrder := order
                  queues := if pendingJobs = 0 then ∅ else w.queues.erase requestId }
            if (w.jobs.get? item.sequence).any Job.isCancelled || w.cancelled.contains item.token then
              w.cancelItem item
            else
              { w.update item.sequence fun j => { j with place := .active } with
                active := w.active + 1
                loop := .submitting item.sequence }
  else { w with loop := .idle }

/-- What `executor.submit` does. -/
inductive Submission (ε : Type)
  | accepted
  /-- It raises, possibly after it has queued the call. -/
  | raised (queued : Bool) (error : ε)

def submit (w : World α ε) (sequence : Nat) : Submission ε → World α ε
  | .accepted => { w.update sequence fun j => { j with called := true } with loop := .dispatching }
  | .raised queued error =>
    { w.update sequence fun j => { j with called := queued } with
      loop := .rejected sequence error }

def settle (w : World α ε) (sequence : Nat) (outcome : Except ε α) : World α ε :=
  let future := match outcome with
    | .ok a => Future.result a
    | .error e => Future.exception e
  { (w.update sequence fun j => j.finish future).release with active := w.active - 1 }

/-- The submitter settles the item unless an executor thread has claimed it. -/
def reject (w : World α ε) (sequence : Nat) (error : ε) : World α ε :=
  if (w.jobs.get? sequence).any (·.claimed) then { w with loop := .dispatching }
  else
    { (w.update sequence fun j => { j with claimed := true }).settle sequence (.error error) with
      loop := .dispatching }

/-! ## Executor threads -/

def pickUp (w : World α ε) (sequence : Nat) : Option (World α ε) :=
  (w.jobs.get? sequence).bind fun j =>
    let picked := if j.claimed then { j with called := false }
      else { j with called := false, claimed := true, worker := .claimed }
    if j.called then some { w with jobs := w.jobs.set sequence picked } else none

/-- The thread of an item goes on: the operation begins, or raises before that, or ends. -/
def work (w : World α ε) (sequence : Nat) (outcome : Option (Except ε α)) : Option (World α ε) :=
  (w.jobs.get? sequence).bind fun j =>
    match j.worker, outcome with
    | .claimed, none =>
      some { w with jobs := w.jobs.set sequence { j with worker := .running, starts := j.starts + 1 } }
    | .claimed, some (.error e) =>
      some { w with jobs := w.jobs.set sequence { j with worker := .finished (.error e) } }
    | .running, some outcome =>
      some { w with jobs := w.jobs.set sequence { j with worker := .finished outcome } }
    | _, _ => none

def complete (w : World α ε) (sequence : Nat) : Option (World α ε) :=
  (w.jobs.get? sequence).bind fun j =>
    match j.worker with
    | .finished outcome => some { w.settle sequence outcome with loop := .dispatching }
    | _ => none

/-! ## Cancellation and closing -/

def cancelPending (lower : Text → Text) (w : World α ε) (item : WorkItem) : World α ε :=
  match w.queues.get? item.context.requestId with
  | none => w
  | some queue =>
    match queue.jobs.remove lower item with
    | (false, _) => w
    | (true, jobs) =>
      let queue := { queue with jobs := jobs }
      let w := { w with pendingJobs := w.pendingJobs - 1 }
      let w :=
        if jobs.size = 0 then
          { w with
            queues := w.queues.erase item.context.requestId
            requestOrder := w.requestOrder.discard item.context.requestId }
        else { w with queues := w.queues.set item.context.requestId queue }
      w.cancelItem item

/-- The pending items of one queue are cancelled. -/
def drain : Nat → StageWorkQueue → World α ε → World α ε
  | 0, _, w => w
  | n + 1, q, w =>
    match q.popleft with
    | none => w.crash
    | some (item, q) => drain n q ((w.cancelToken item.token).cancelItem item)

def close (w : World α ε) (graceful : Bool) : World α ε :=
  let w := { w with closed := true }
  if graceful then w
  else
    let w := w.queues.values.foldl (fun w queue => drain queue.jobs.size queue.jobs w) w
    { w with queues := ∅, requestOrder := {}, pendingJobs := 0 }

def configure (w : World α ε) (value : Int) : World α ε :=
  let capacity := (max 1 (min (w.executorCapacity : Int) (if value = 0 then 1 else value))).toNat
  { w with threadCapacity := capacity, peak := max w.peak capacity, loop := .dispatching }

end World

/-! ## The machine -/

inductive Action (α ε : Type)
  -- sections of the event loop
  | run (id : Nat) (c : Call)
  | stepAdmission (id : Nat)
  /-- The token's callback for an admission task. -/
  | cancelAdmission (id : Nat)
  /-- The task of a call of `run` that waits for its slot is cancelled. -/
  | cancelCall (id : Nat)
  | resume (id : Nat)
  /-- The task of a call of `run` that waits for its future is cancelled. -/
  | cancelWaiter (sequence : Nat)
  /-- The token's callback for an item. -/
  | cancelPending (sequence : Nat)
  | complete (sequence : Nat)
  | close (graceful : Bool)
  | configure (value : Int)
  -- statements of `_dispatch`
  | dispatch
  | submit (submission : World.Submission ε)
  | reject
  -- other threads
  | cancelToken (token : Token)
  | pickUp (sequence : Nat)
  | work (sequence : Nat) (outcome : Option (Except ε α))

variable (lower : Text → Text)

/-- A section of the event loop between two awaits. -/
def loopStep (w : World α ε) : Action α ε → Option (World α ε)
  | .run id c => if w.calls.get? id = none then some (w.run lower id c) else none
  | .stepAdmission id => w.stepAdmission id
  | .cancelAdmission id =>
    (w.calls.get? id).bind fun a =>
      if w.cancelled.contains a.call.token then some (w.cancelAdmission id a) else none
  | .cancelCall id => (w.calls.get? id).map fun a => w.cancelAdmission id { a with cancelled := true }
  | .resume id => w.resume lower id
  | .cancelWaiter sequence =>
    (w.jobs.get? sequence).map fun j => (w.cancelToken j.item.token).cancelPending lower j.item
  | .cancelPending sequence =>
    (w.jobs.get? sequence).bind fun j =>
      if w.cancelled.contains j.item.token then some (w.cancelPending lower j.item) else none
  | .complete sequence => w.complete sequence
  | .close graceful => some (w.close graceful)
  | .configure value => some (w.configure value)
  | _ => none

def step (w : World α ε) : Action α ε → Option (World α ε)
  | .cancelToken token => some (w.cancelToken token)
  | .pickUp sequence => w.pickUp sequence
  | .work sequence outcome => w.work sequence outcome
  | a =>
    match w.loop, a with
    | .idle, a => loopStep lower w a
    | .dispatching, .dispatch => some w.dispatch
    | .submitting sequence, .submit submission => some (w.submit sequence submission)
    | .rejected sequence error, .reject => some (w.reject sequence error)
    | _, _ => none

/-- `AsyncWorkBroker.__init__`, on a machine with `cpus` processors. -/
def World.init (threadCapacity maxPendingJobs : Int) (cpus : Nat) : World α ε :=
  let capacity := max 1 (if threadCapacity = 0 then min 32 (max 4 (max 1 (cpus : Int))) else threadCapacity)
  let slots := max capacity (if maxPendingJobs = 0 then 4096 else maxPendingJobs)
  { threadCapacity := capacity.toNat
    executorCapacity := capacity.toNat
    maxPendingJobs := slots.toNat
    pendingSlots := { value := slots.toNat } }

def machine (threadCapacity maxPendingJobs : Int) (cpus : Nat) :
    Machine (World α ε) (Action α ε) where
  init := World.init threadCapacity maxPendingJobs cpus
  step := step lower

end Sunpack.AsyncWork
