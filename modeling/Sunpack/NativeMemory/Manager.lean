import Mathlib
import Sunpack.Lib.Machine

/-!
# The native memory manager

`NativeMemoryManager` of the 7-Zip bridge, with the jobs of one worker process. A critical section of its
mutex is a step; so is the removal of an allocation from the table in front of its release, and each
callback of the monitor. The sampled headroom is any number, and so are the answers of the system.

Numbers have no bound here, a release of an address of the table does not fail, and the addresses that
the system gives are not in use.
-/

namespace Sunpack.NativeMemory

open Lib

/-- `SUNPACK_LARGE_ALLOCATION` -/
def quantum : Nat := 4 * 2 ^ 20

def smallWorkspaceBytesPerCredit : Nat := 16 * 2 ^ 20

def maxU64 : Nat := 2 ^ 64 - 1

def maxI64 : Int := 2 ^ 63 - 1

/-- Whole pages. -/
def commitment (size : Nat) : Nat :=
  if maxU64 - 4095 < size then maxU64 else (size + 4095) / 4096 * 4096

def canFit (headroom : Int) (bytes : Nat) : Prop := 0 ≤ headroom ∧ (bytes : Int) ≤ headroom

instance (headroom : Int) (bytes : Nat) : Decidable (canFit headroom bytes) :=
  inferInstanceAs (Decidable (_ ∧ _))

structure Job where
  cancel : Bool := false
  revoked : Bool := false
  denied : Bool := false
  /-- Whether there is a `wake`. -/
  wake : Bool := false
  committed : Nat := 0
  peak : Nat := 0
  admission : Nat := 0
  required : Nat := 0
  failedHeadroom : Int := -1
  retryHeadroom : Int := maxI64
  running : Bool := false
  wakePending : Bool := false

structure Waiter (ι : Type) where
  job : ι
  /-- Whether there is a `notice`. -/
  notice : Bool
  announced : Bool := false

inductive Callback (ι : Type)
  | wake (job : ι)
  | blocked (job : ι)
  /-- `ready`, after the end of an announced episode. -/
  | ready (job : ι) (resumed announced : Bool)

/-- Where the monitor stands. -/
inductive Monitor (ι : Type)
  | waiting
  /-- After the first critical section, and the reclaim under pressure. -/
  | reclaimed (pressure : Bool)
  | calling (callbacks : List (Callback ι)) (stopped : Bool)
  | returned

/-- Where the executor has a job. -/
inductive Caller
  | resting
  | running
  | parked
  /-- `park` has found the manager stopping, and is going to call `ready(false)`. -/
  | refused
  /-- `ready` has been called; the job is queued again. -/
  | resumed
  deriving DecidableEq

structure Allocation (ι : Type) where
  address : Nat
  job : ι
  size : Nat

structure State (ι : Type) where
  job : ι → Job := fun _ => {}
  jobs : List ι := []
  waiters : List (Waiter ι) := []
  stopping : Bool := false
  reclaimRequested : Bool := false
  cached : Int := 0
  resample : Bool := true
  monitor : Monitor ι := .waiting
  allocations : List (Allocation ι) := []
  /-- Out of the table, and not yet released. -/
  freeing : List (Allocation ι) := []
  caller : ι → Caller := fun _ => .resting
  cancelRequested : ι → Bool := fun _ => false
  /-- History: the last sample, what was committed then, and the number of samples. -/
  sampled : Int := 0
  base : Nat := 0
  samples : Nat := 0
  /-- History: the calls of `park`, and those of `ready`. -/
  parks : List ι := []
  answers : List (ι × Bool) := []

/-- What the system answers to an allocation that fits. -/
inductive Given
  | granted (address : Nat)
  | rejected
  /-- There is no memory for the entry of the table. -/
  | unrecorded

/-- `fresh` and `low` are what the events of the system say; the other arguments of this kind are the
answers of the queries, where a query is made. -/
inductive Action (ι : Type)
  | begin (j : ι) (wake : Bool)
  | setWake (j : ι)
  | allocate (j : ι) (size : Nat) (low : Bool) (first second third : Option Int) (given : Given)
  | free (address : Nat)
  | released (address : Nat)
  | mayStartThread (j : ι) (first second : Option Int)
  | retry (j : ι) (first : Option Int)
  | finish (j : ι)
  | park (j : ι) (notice : Bool)
  | refuse (j : ι)
  | cancel (j : ι)
  | changed
  | stop
  | observe (fresh : Bool) (first second third : Option Int)
  | serve (first : Option Int) (rest : List (Option Int))
  | call

section

variable {ι : Type} [DecidableEq ι]

namespace State

variable (s : State ι)

/-! ## The ledger -/

def committedOf (allocations : List (Allocation ι)) : Nat :=
  (allocations.map fun a => commitment a.size).sum

/-- What is committed by all jobs. -/
def live : Nat := committedOf (s.allocations ++ s.freeing)

def admissions : Nat := (s.jobs.map fun j => (s.job j).admission).sum

def headroom : Int := s.cached - s.admissions

def modify (j : ι) (f : Job → Job) : State ι :=
  { s with job := Function.update s.job j (f (s.job j)) }

def sampledAt (headroom : Int) : State ι :=
  { s with
    cached := headroom
    resample := false
    sampled := headroom
    base := s.live
    samples := s.samples + 1 }

/-- A query is made if it has to be, or for the time of the last one. -/
def sample (fresh : Bool) : Option Int → Option (State ι)
  | some headroom => some (s.sampledAt headroom)
  | none => if fresh ∨ s.resample then none else some s

def failedLocked (j : ι) (required : Nat) (headroom : Int) : State ι :=
  s.modify j fun job =>
    { job with
      required := max job.required required
      retryHeadroom := headroom + (job.committed + job.admission : Nat) }

def revokeLocked (j : ι) : State ι :=
  s.modify j fun job =>
    if job.revoked then job else { job with revoked := true, cancel := true, wakePending := true }

/-! ## The calls of the executor -/

def enroll (j : ι) : State ι :=
  { s with
    jobs := if j ∈ s.jobs then s.jobs else s.jobs ++ [j]
    caller := Function.update s.caller j .running }

def beginJob (job : Job) (wake : Bool) : Job :=
  { job with
    running := true
    wakePending := false
    failedHeadroom := -1
    retryHeadroom := maxI64
    required := if job.revoked then job.required else 0
    peak := job.committed
    revoked := false
    denied := false
    cancel := false
    wake := wake }

def begin (j : ι) (wake : Bool) : Option (State ι) :=
  match s.caller j with
  | .resting | .resumed => some ((s.modify j fun job => beginJob job wake).enroll j)
  | _ => none

def setWake (j : ι) : Option (State ι) :=
  match s.caller j with
  | .running => some (s.modify j fun job =>
      { job with wake := true, wakePending := job.wakePending || job.revoked })
  | _ => none

def dismiss (j : ι) : State ι :=
  { s.modify j fun job => { job with admission := 0 } with
    jobs := s.jobs.erase j
    caller := Function.update s.caller j .resting }

/-- `end` -/
def finish (j : ι) : Option (State ι) :=
  match s.caller j with
  | .running =>
    some ((s.modify j fun job => { job with running := false, wakePending := false, wake := false }).dismiss j)
  | _ => none

def retry (j : ι) (first : Option Int) : Option (State ι) :=
  match s.caller j with
  | .running =>
    if (s.job j).revoked ∨ (s.job j).denied then some (s.revokeLocked j)
    else
      (s.sample true first).map fun s' =>
        (s'.failedLocked j (max (s'.job j).peak ((s'.job j).committed + quantum)) s'.headroom).revokeLocked j
  | _ => none

/-! ## Allocations -/

/-- The part of a request that the admission of its job does not cover. -/
def uncovered (j : ι) (size : Nat) : Nat :=
  commitment size - min (commitment size) (s.job j).admission

def grant (j : ι) (size address : Nat) : State ι :=
  { s.modify j fun job =>
      { job with
        admission := job.admission - min (commitment size) job.admission
        committed := job.committed + commitment size } with
    allocations := ⟨address, j, size⟩ :: s.allocations
    cached := s.cached - commitment size }

/-- The rest of the admission is given back when the workspace is there. -/
def settle (j : ι) (third : Option Int) : Option (State ι) :=
  if (s.job j).admission ≠ 0 ∧ (s.job j).required ≤ (s.job j).committed then
    (s.modify j fun job => { job with admission := 0 }).sample true third
  else some s

/-- `total` of a request. -/
def total (j : ι) (size : Nat) : Nat := min maxU64 ((s.job j).committed + commitment size)

def deny (j : ι) (size : Nat) : State ι :=
  { (s.failedLocked j (s.total j size) s.headroom).modify j fun job => { job with denied := true } with
    reclaimRequested := true }

/-- After a sample. -/
def reject (j : ι) (size : Nat) : State ι :=
  let s' := s.modify j fun job =>
    { job with failedHeadroom := s.headroom + (job.committed + job.admission : Nat) }
  { (s'.failedLocked j (s.total j size) s.headroom).modify j fun job => { job with denied := true } with
    resample := true }

def virtualAlloc (j : ι) (size : Nat) (third : Option Int) : Given → Option (State ι)
  | .granted address =>
    if ∀ a ∈ s.allocations ++ s.freeing, a.address ≠ address then
      (s.grant j size address).settle j third
    else none
  | .rejected => (s.sample true third).map fun s' => s'.reject j size
  | .unrecorded => some s

def allocate (j : ι) (size : Nat) (low : Bool) (first second third : Option Int) (given : Given) :
    Option (State ι) :=
  match s.caller j with
  | .running =>
    if (s.job j).revoked then some s
    else
      ((s.modify j fun job => { job with peak := max job.peak (s.total j size) }).sample false first).bind
        fun s₁ =>
          (if ¬canFit s₁.headroom (s₁.uncovered j size) ∨ low then s₁.sample true second
            else some s₁).bind fun s₂ =>
              if canFit s₂.headroom (s₂.uncovered j size) then s₂.virtualAlloc j size third given
              else some (s₂.deny j size)
  | _ => none

/-- `sunpack_memory_free` takes the allocation out of the table first. -/
def free (address : Nat) : Option (State ι) :=
  match s.allocations.find? fun a => a.address = address with
  | some a => some
      { s with
        allocations := s.allocations.eraseP fun a => a.address = address
        freeing := a :: s.freeing }
  | none => none

def released (address : Nat) : Option (State ι) :=
  match s.freeing.find? fun a => a.address = address with
  | some a => some
      { s.modify a.job fun job => { job with committed := job.committed - commitment a.size } with
        freeing := s.freeing.eraseP fun a => a.address = address
        cached := s.cached + commitment a.size }
  | none => none

def mayStartThread (j : ι) (first second : Option Int) : Option (State ι) :=
  match s.caller j with
  | .running =>
    if (s.job j).revoked then some s
    else
      (s.sample false first).bind fun s₁ =>
        (if s₁.headroom + (s₁.job j).admission < 0 then s₁.sample true second else some s₁).bind fun s₂ =>
          if 0 ≤ s₂.headroom + (s₂.job j).admission then some s₂
          else
            some ((s₂.modify j fun job => { job with denied := true }).failedLocked j
              ((s₂.job j).committed + quantum) s₂.headroom)
  | _ => none

/-! ## Waiting -/

def parkJob (job : Job) : Job :=
  { job with
    failedHeadroom :=
      if 0 ≤ job.failedHeadroom then job.failedHeadroom - job.committed else job.failedHeadroom
    retryHeadroom :=
      if job.retryHeadroom ≠ maxI64 then job.retryHeadroom - job.committed else job.retryHeadroom }

def wait (j : ι) (notice : Bool) : State ι :=
  { s with
    waiters := s.waiters ++ [⟨j, notice, false⟩]
    caller := Function.update s.caller j .parked
    parks := s.parks ++ [j] }

def park (j : ι) (notice : Bool) : Option (State ι) :=
  match s.caller j with
  | .resting =>
    some <|
      if s.stopping then
        { s with caller := Function.update s.caller j .refused, parks := s.parks ++ [j] }
      else { (s.modify j parkJob).wait j notice with resample := true }
  | _ => none

def answer (j : ι) (resumed : Bool) : State ι :=
  { s with
    caller := Function.update s.caller j .resumed
    answers := s.answers ++ [(j, resumed)] }

def refuse (j : ι) : Option (State ι) :=
  match s.caller j with
  | .refused => some (s.answer j false)
  | _ => none

def cancel (j : ι) : State ι :=
  { s.modify j fun job => { job with cancel := true } with
    cancelRequested := Function.update s.cancelRequested j true }

/-! ## The monitor -/

/-- Forecasts are given up before real memory is. -/
def refund : State ι :=
  if s.headroom < 0 then
    { s with job := fun j => if j ∈ s.jobs then { s.job j with admission := 0 } else s.job j }
  else s

def pressure (third : Option Int) : Option (State ι × Bool) :=
  if s.stopping then some (s, false)
  else if s.reclaimRequested then some (s, true)
  else (s.sample false third).map fun s' => (s', decide (s'.headroom < 0))

def observe (fresh : Bool) (first second third : Option Int) : Option (State ι) :=
  match s.monitor with
  | .waiting =>
    (s.sample fresh first).bind fun s₁ =>
      (s₁.sample false second).bind fun s₂ =>
        (s₂.refund.pressure third).map fun r =>
          { r.1 with monitor := .reclaimed r.2, reclaimRequested := false }
  | _ => none

/-- The largest running job, the first of equal ones. -/
def victim : Option ι :=
  (s.jobs.filter fun j => !(s.job j).revoked && (s.job j).running && (s.job j).committed != 0).argmax
    fun j => (s.job j).committed

/-- What is going to be given back by the jobs that are revoked. -/
def retiring : Nat :=
  ((s.jobs.filter fun j => (s.job j).revoked).map fun j => (s.job j).committed).sum

def revokeVictim : State ι :=
  match s.victim with
  | some j =>
    if ¬s.stopping ∧ s.headroom < 0 ∧ (s.retiring : Int) < -s.headroom then
      (s.failedLocked j (s.job j).committed s.headroom).revokeLocked j
    else s
  | none => s

/-- The jobs whose `wake` is to be called. -/
def wakes : List ι := s.jobs.filter fun j => (s.job j).wakePending && (s.job j).wake

def takeWakes : State ι :=
  { s with job := fun j => if j ∈ s.wakes then { s.job j with wakePending := false } else s.job j }

def needed (j : ι) : Nat := (s.job j).required - (s.job j).committed

def reservation (j : ι) : Nat := min maxU64 (s.needed j + smallWorkspaceBytesPerCredit)

def progressing : Bool := s.jobs.any fun j => (s.job j).running || (s.job j).admission != 0

def fits (j : ι) : Prop :=
  (canFit s.headroom (s.reservation j) ∨ s.progressing = false ∧ canFit s.headroom (s.needed j) ∨
      (quantum : Int) ≤ s.headroom ∧ (s.job j).retryHeadroom ≤ s.headroom - quantum) ∧
    ((s.job j).failedHeadroom < 0 ∨ (s.job j).failedHeadroom < s.headroom)

instance (j : ι) : Decidable (s.fits j) := inferInstanceAs (Decidable (_ ∧ _))

def resume (j : ι) : State ι :=
  { s.modify j fun job =>
      { job with admission := min (s.reservation j) (max s.headroom 0).toNat } with
    jobs := s.jobs ++ [j] }

def announces (w : Waiter ι) : Bool := !w.announced && !s.progressing && w.notice

/-- The waiters one after the other, with those that stay and the callbacks so far. -/
def serveFrom (stopped : Bool) (stay : List (Waiter ι)) (callbacks : List (Callback ι)) :
    List (Waiter ι) → List (Option Int) → State ι → Option (State ι)
  | [], _, s => some { s with waiters := stay, monitor := .calling callbacks stopped }
  | _ :: _, [], _ => none
  | w :: ws, q :: qs, s =>
    (s.sample false q).bind fun s =>
      if stopped ∨ s.cancelRequested w.job then
        s.serveFrom stopped stay (callbacks ++ [.ready w.job false w.announced]) ws qs
      else if s.fits w.job then
        (s.resume w.job).serveFrom stopped stay (callbacks ++ [.ready w.job true w.announced]) ws qs
      else
        s.serveFrom stopped (stay ++ [{ w with announced := w.announced || s.announces w }])
          (callbacks ++ if s.announces w then [.blocked w.job] else []) ws qs

def serve (first : Option Int) (rest : List (Option Int)) : Option (State ι) :=
  match s.monitor with
  | .reclaimed pressure =>
    (s.sample pressure first).bind fun s₁ =>
      let s₂ := s₁.revokeVictim
      s₂.takeWakes.serveFrom s₂.stopping [] (s₂.wakes.map .wake) s₂.waiters rest
  | _ => none

def call : Option (State ι) :=
  match s.monitor with
  | .calling (.ready j resumed _ :: rest) stopped =>
    some { s.answer j resumed with monitor := .calling rest stopped }
  | .calling (_ :: rest) stopped => some { s with monitor := .calling rest stopped }
  | .calling [] stopped => some { s with monitor := if stopped then .returned else .waiting }
  | _ => none

end State

def step (s : State ι) : Action ι → Option (State ι)
  | .begin j wake => s.begin j wake
  | .setWake j => s.setWake j
  | .allocate j size low first second third given => s.allocate j size low first second third given
  | .free address => s.free address
  | .released address => s.released address
  | .mayStartThread j first second => s.mayStartThread j first second
  | .retry j first => s.retry j first
  | .finish j => s.finish j
  | .park j notice => s.park j notice
  | .refuse j => s.refuse j
  | .cancel j => some (s.cancel j)
  | .changed => some { s with resample := true }
  | .stop => some { s with stopping := true }
  | .observe fresh first second third => s.observe fresh first second third
  | .serve first rest => s.serve first rest
  | .call => s.call

end

def manager (ι : Type) [DecidableEq ι] : Machine (State ι) (Action ι) := ⟨{}, step⟩

end Sunpack.NativeMemory
