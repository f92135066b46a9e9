import Sunpack.Lib.Machine
import Sunpack.PasswordLoop.Result

/-!
# The candidate loop

The direct candidate loop of `run_request` over all attempts of a job, with the flags of its memory. One
step reads at most one flag. A revocation sets `revoked` and `cancel` under the mutex of the memory
manager, so it is one step; it can come in front of every other one, and so can the cancellation of the
job.

What an extraction leaves in the output directory, and the receipts of it, are kept by the index of the
candidate. The choice between this loop and the probe of all candidates, changed inputs and the events
are left out.
-/

namespace Sunpack.PasswordLoop

open Sunpack.Lib

inductive Outcome
  | published (r : ExtractArchiveResult)
  | cancelled

/-- Where `run_request` stands. -/
inductive Phase
  /-- No attempt is running; the job waits for memory. -/
  | parked
  /-- In front of the first read of `revoked`. -/
  | started
  /-- In front of the first read of `cancel`. -/
  | admitted
  /-- At the head of the loop, with the result of the candidate before. -/
  | looping (index : Nat) (r : ExtractArchiveResult)
  | discarding (index : Nat) (r : ExtractArchiveResult)
  | extracting (index : Nat)
  /-- In front of the reads of `cancel`, `revoked` and `denied` before a probe. -/
  | readCancel (index : Nat) (r : ExtractArchiveResult)
  | readRevoked (index : Nat) (r : ExtractArchiveResult)
  | readDenied (index : Nat) (r : ExtractArchiveResult)
  | probing (index : Nat) (r : ExtractArchiveResult)
  | deciding (index : Nat) (r : ExtractArchiveResult)
  /-- Behind the loop. -/
  | finished (r : ExtractArchiveResult)
  /-- In front of the last read of `revoked`. -/
  | closing (r : ExtractArchiveResult)
  /-- In front of the last read of `cancel`. -/
  | publishing (r : ExtractArchiveResult)
  | done (outcome : Outcome)

structure Job where
  phase : Phase
  candidateIndex : Nat
  candidateDiscardPending : Bool
  revoked : Bool
  denied : Bool
  /-- The token of the attempt, which a revocation sets too. -/
  cancel : Bool
  /-- The token of the job. -/
  jobCancelled : Bool
  /-- The candidates that have output in the directory. -/
  output : List Nat
  /-- The candidates that the replay has receipts of. -/
  receipts : List Nat
  /-- The candidates that were rejected, in this order. -/
  rejected : List Nat
  cleanupFailed : Bool

inductive Action
  | revoke
  | deny
  | cancelJob
  /-- An allocation of the job itself fails. -/
  | badAlloc
  /-- The job is given memory again. -/
  | resume
  /-- A step without any choice. -/
  | next
  /-- The extraction comes to its end. -/
  | extracted
  /-- It is interrupted, and leaves this result. -/
  | interrupted (r : ExtractArchiveResult)
  | probed
  | probeInterrupted (rejects : Bool)
  | discarded
  /-- The output cannot be removed, but for some of it. -/
  | discardFailed (left : List Nat) (message : String)

namespace Job

def init : Job where
  phase := .parked
  candidateIndex := 0
  candidateDiscardPending := false
  revoked := false
  denied := false
  cancel := false
  jobCancelled := false
  output := []
  receipts := []
  rejected := []
  cleanupFailed := false

variable (c : Candidates) (j : Job)

def running : Bool :=
  match j.phase with
  | .parked | .done _ => false
  | _ => true

/-- `revoke_locked`: the token of the attempt goes with the memory. -/
def revoke : Job := { j with revoked := true, cancel := true }

def goto (phase : Phase) : Job := { j with phase := phase }

/-- The head of the loop. -/
def loop (index : Nat) (r : ExtractArchiveResult) : Job :=
  if j.candidateDiscardPending then j.goto (.discarding index r)
  else if index < c.count then
    if j.cancel then j.goto (.finished r) else j.goto (.extracting index)
  else j.goto (.finished (candidateFailure c.count))

/-- Rejected for good: the output is discarded before anything else. -/
def reject (index : Nat) (r : ExtractArchiveResult) : Job :=
  { j with
    phase := .looping index { r with passwordCandidatesAllRejected := false }
    candidateDiscardPending := true
    rejected := j.rejected ++ [index] }

def settle (index : Nat) (r : ExtractArchiveResult) : Job :=
  if r.ok || !r.passwordCandidatesAllRejected || c.count == 1 || j.cancel then j.goto (.finished r)
  else j.reject index r

/-- Memory that was denied is a reason to try again, unless the attempt was a success. -/
def finish (r : ExtractArchiveResult) : Job :=
  if (r.failureKind == "resource_unavailable" || (j.denied && !r.ok)) && !j.revoked then
    j.revoke.goto (.closing r)
  else j.goto (.closing r)

/-- The steps without a choice. -/
def next : Option Job :=
  match j.phase with
  | .started => some (if j.revoked then j.goto .parked else j.goto .admitted)
  | .admitted =>
    some (if j.cancel then j.goto (.done .cancelled) else j.goto (.looping j.candidateIndex {}))
  | .looping index r => some (j.loop c index r)
  | .readCancel index r =>
    some (if r.ambiguous && !j.cancel then j.goto (.readRevoked index r) else j.goto (.deciding index r))
  | .readRevoked index r =>
    some (if j.revoked then j.goto (.deciding index r) else j.goto (.readDenied index r))
  | .readDenied index r =>
    some (if j.denied then j.goto (.deciding index r)
      else if r.extractionRejectsPassword then j.goto (.deciding index r.rejected)
      else j.goto (.probing index r))
  | .deciding index r => some (j.settle c index (r.direct c.count index))
  | .finished r => some (j.finish r)
  | .closing r => some (if j.revoked && !r.ok then j.goto .parked else j.goto (.publishing r))
  | .publishing r =>
    some (if j.cancel then j.goto (.done .cancelled) else j.goto (.done (.published r)))
  | .parked | .discarding _ _ | .extracting _ | .probing _ _ | .done _ => none

/-- The extraction of a candidate leaves output and receipts. -/
def extract (index : Nat) (r : ExtractArchiveResult) : Job :=
  { j with
    phase := .readCancel index r
    output := index :: j.output
    receipts := index :: j.receipts }

def step : Action → Option Job
  | .revoke => if j.running then some j.revoke else none
  | .deny => if j.running then some { j with denied := true } else none
  | .cancelJob => some { j with jobCancelled := true, cancel := true }
  | .badAlloc => if j.running then some (j.revoke.goto .parked) else none
  | .resume =>
    match j.phase with
    | .parked =>
      some { j with phase := .started, revoked := false, denied := false, cancel := j.jobCancelled }
    | _ => none
  | .next => j.next c
  | .extracted =>
    match j.phase with
    | .extracting index => some (j.extract index (c.extracted index))
    | _ => none
  | .interrupted r =>
    match j.phase with
    | .extracting index => if j.cancel && !r.ok then some (j.extract index r) else none
    | _ => none
  | .probed =>
    match j.phase with
    | .probing index r =>
      some (j.goto (.deciding index (if c.probed index then r.rejected else r)))
    | _ => none
  | .probeInterrupted rejects =>
    match j.phase with
    | .probing index r =>
      if j.cancel then some (j.goto (.deciding index (if rejects then r.rejected else r))) else none
    | _ => none
  | .discarded =>
    match j.phase with
    | .discarding index r =>
      some { j with
        phase := .looping (index + 1) r
        candidateIndex := index + 1
        candidateDiscardPending := false
        output := []
        receipts := [] }
    | _ => none
  | .discardFailed left message =>
    match j.phase with
    | .discarding _ _ =>
      if left ⊆ j.output then
        some { j with
          phase := .finished (cleanupFailure message)
          output := left
          cleanupFailed := true }
      else none
    | _ => none

end Job

/-- The job with these candidates, over all its attempts. -/
def jobs (c : Candidates) : Machine Job Action where
  init := Job.init
  step j := j.step c

/-- `cancel` is not read where it is the memory that was revoked: this is where the job would be taken
for cancelled. -/
def NotMistaken (j : Job) (_ : Action) : Prop :=
  (j.phase = .admitted ∨ ∃ r, j.phase = .publishing r) → j.revoked = true → j.jobCancelled = true

end Sunpack.PasswordLoop
