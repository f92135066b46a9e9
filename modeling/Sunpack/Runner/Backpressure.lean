import Mathlib.Tactic
import Sunpack.Lib.Dict
import Sunpack.Lib.Machine

/-!
# Jobs that the native queue rejected

`_NativeQueueCapacity` and its callers in `sevenzip_runner.py`: one worker process, the dispatcher of
its lines, and the calls of `_submit_native_job_asyncio`, which share an event loop. A step is what runs
between two awaits; closing, the end of the process and the rest of `abort` are steps of their own, so
lines that are still in the pipe may come between them. Every job has a call of its own.

A waiter is the job that it resubmits. `submissions`, `rejections`, `completions` and the verdict of a
registration are history.
-/

namespace Sunpack.Runner

open Lib

abbrev JobId := Nat

/-! ## The queue -/

structure NativeQueueCapacity where
  /-- The oldest one first. -/
  waiters : List JobId := []
  rejected : List JobId := []
deriving DecidableEq, Repr

namespace NativeQueueCapacity

/-- The jobs to resubmit at once come with the queue. -/
def park (q : NativeQueueCapacity) (job : JobId) (completionDone otherJobsActive : Bool) :
    NativeQueueCapacity × List JobId :=
  let q := { q with rejected := if job ∈ q.rejected then q.rejected else q.rejected ++ [job] }
  if completionDone then (q, [])
  else if otherJobsActive then
    ({ q with waiters := if job ∈ q.waiters then q.waiters else q.waiters ++ [job] }, [])
  -- nothing admitted is left to finish, so no event could wake this job
  else (q, [job])

def release (q : NativeQueueCapacity) (job : JobId) : NativeQueueCapacity × List JobId :=
  if job ∈ q.rejected then ({ q with rejected := q.rejected.erase job }, [])
  else ({ q with waiters := q.waiters.tail }, q.waiters.head?.toList)

def discard (q : NativeQueueCapacity) (job : JobId) : NativeQueueCapacity :=
  { q with waiters := q.waiters.erase job }

def flush (q : NativeQueueCapacity) : NativeQueueCapacity × List JobId := ({}, q.waiters)

end NativeQueueCapacity

/-! ## The worker and the calls -/

/-- What the result line of a submission says. -/
inductive Verdict
  /-- `retryable`, with the native status `"backpressure"`. -/
  | rejected
  | admitted
deriving DecidableEq, Repr

inductive FutureState
  | pending
  | done
  | cancelled
deriving DecidableEq, Repr

/-- A call of `_submit_native_job_asyncio`. -/
structure Call where
  /-- The task of its first submission has run. -/
  submitted : Bool := false
  cancelled : Bool := false
  pendingResult : Option Verdict := none
  resultFuture : FutureState := .pending
deriving DecidableEq, Repr

/-- An entry of `_jobs`. -/
structure Registration where
  callbackError : Bool := false
  verdict : Option Verdict := none
deriving DecidableEq, Repr

structure Worker where
  alive : Bool := true
  closing : Bool := false
  capacity : NativeQueueCapacity := {}
  jobs : Dict JobId Registration := ∅
  /-- The tasks of `spawn_resubmission` that have not run. -/
  resubmissions : List JobId := []
  calls : JobId → Option Call := fun _ => none
  submissions : JobId → Nat := fun _ => 0
  rejections : JobId → Nat := fun _ => 0
  completions : JobId → Nat := fun _ => 0

namespace Worker

def hasOtherJobs (w : Worker) (job : JobId) : Bool := w.jobs.keys.any (· ≠ job)

def setCall (w : Worker) (job : JobId) (call : Call) : Worker :=
  { w with calls := Function.update w.calls job (some call) }

/-- The queue after a method, and the tasks it spawned. -/
def setCapacity (w : Worker) (result : NativeQueueCapacity × List JobId) : Worker :=
  { w with capacity := result.1, resubmissions := w.resubmissions ++ result.2 }

def release (w : Worker) (job : JobId) : Worker := w.setCapacity (w.capacity.release job)

def discard (w : Worker) (job : JobId) : Worker :=
  { w with capacity := w.capacity.discard job }

def complete (w : Worker) (job : JobId) : Worker :=
  match w.calls job with
  | some call =>
    if call.resultFuture = .pending then
      { w.setCall job { call with resultFuture := .done } with
        completions := Function.update w.completions job (w.completions job + 1) }
    else w
  | none => w

/-- `on_error` gives the call its failure. -/
def onError (w : Worker) (job : JobId) : Worker := w.complete job

def finishJob (w : Worker) (job : JobId) : Worker := { w with jobs := w.jobs.erase job }

def failJob (w : Worker) (job : JobId) : Worker := (w.finishJob job).onError job

def failAllJobs (w : Worker) : Worker := w.jobs.keys.foldl failJob w

def flush (w : Worker) : Worker := w.setCapacity w.capacity.flush

/-- `submit` up to its sending, unless it raises. -/
def submit (w : Worker) (job : JobId) : Option Worker :=
  if w.closing then none
  else if job ∈ w.jobs.keys then none
  else
    some { w with
      jobs := w.jobs.set job {}
      submissions := Function.update w.submissions job (w.submissions job + 1) }

/-! ## Lines -/

inductive Line
  | result (verdict : Verdict)
  | jobFinished
deriving DecidableEq, Repr

/-- `on_line` for `job_finished`, and whether it is complete. -/
def onJobFinished (w : Worker) (job : JobId) (call : Call) : Bool × Worker :=
  match call.pendingResult with
  | none => (false, w)
  | some verdict =>
    if !call.cancelled && verdict = .rejected then
      let w := w.setCall job { call with pendingResult := none }
      let w := w.setCapacity
        (w.capacity.park job (call.resultFuture ≠ .pending) (w.hasOtherJobs job))
      (true, { w with rejections := Function.update w.rejections job (w.rejections job + 1) })
    else (true, (w.setCall job { call with pendingResult := none }).complete job)

/-- `_dispatch_line`; a callback may raise. -/
def dispatchLine (w : Worker) (job : JobId) (line : Line) (raises : Bool) : Worker :=
  match w.jobs.get? job, w.calls job with
  | some registration, some call =>
    match line with
    | .result verdict =>
      let registration := { registration with verdict := some verdict }
      if registration.callbackError then { w with jobs := w.jobs.set job registration }
      else if raises then
        { w with jobs := w.jobs.set job { registration with callbackError := true } }
      else
        ({ w with jobs := w.jobs.set job registration }).setCall job
          { call with pendingResult := some verdict }
    | .jobFinished =>
      if registration.callbackError || raises then (w.failJob job).release job
      else
        let result := w.onJobFinished job call
        (if result.1 then result.2.finishJob job else result.2.failJob job).release job
  | _, _ => if line = .jobFinished then w.release job else w

/-- `resubmit_after_backpressure`, up to its sending. -/
def resubmitAfterBackpressure (w : Worker) (job : JobId) (call : Call) : Worker :=
  if call.cancelled || call.resultFuture ≠ .pending then w.release job
  else if !w.alive then w.onError job
  else (w.submit job).getD (w.onError job)

end Worker

/-! ## Steps -/

inductive Action
  | start (job : JobId)
  | submit (job : JobId)
  | dispatch (job : JobId) (line : Worker.Line) (raises : Bool)
  | resubmit (job : JobId)
  /-- A call is cancelled, and ends after its submission when its job is no longer registered. -/
  | cancel (job : JobId)
  | endCancel (job : JobId)
  /-- The done callback of a result. -/
  | resultDone (job : JobId)
  /-- `abort` or `close` begins: a broken pipe, a protocol error, or the end of the program. -/
  | beginClosing
  | exit
  /-- The rest of `abort`. -/
  | endAbort
  /-- The `flush` after the last line, or at the end of `close`. -/
  | flush

open Worker in
def step (w : Worker) : Action → Option Worker
  | .start job =>
    match w.calls job with
    | some _ => none
    | none => some (w.setCall job {})
  | .submit job =>
    match w.calls job with
    | some call =>
      if call.submitted then none
      else
        let w := w.setCall job { call with submitted := true }
        -- a submission that raises ends the call
        some ((w.submit job).getD w)
    | none => none
  | .dispatch job line raises =>
    match w.jobs.get? job with
    | some registration =>
      -- the lines of a submission are its result and its end
      if registration.verdict = none ↔ line = .jobFinished then none
      else some (w.dispatchLine job line raises)
    | none => some (w.dispatchLine job line raises)
  | .resubmit job =>
    if job ∈ w.resubmissions then
      match w.calls job with
      | some call =>
        some (({ w with resubmissions := w.resubmissions.erase job }).resubmitAfterBackpressure job
          call)
      | none => none
    else none
  | .cancel job =>
    match w.calls job with
    | some call => some ((w.setCall job { call with cancelled := true }).discard job)
    | none => none
  | .endCancel job =>
    match w.calls job with
    | some call =>
      if call.cancelled ∧ call.submitted ∧ job ∉ w.jobs.keys then
        some (if call.resultFuture = .pending then
          w.setCall job { call with resultFuture := .cancelled } else w)
      else none
    | none => none
  | .resultDone job =>
    match w.calls job with
    | some call => if call.resultFuture = .pending then none else some (w.discard job)
    | none => none
  | .beginClosing => some { w with closing := true }
  | .exit => some { w with alive := false }
  | .endAbort => if w.closing ∧ w.alive = false then some w.failAllJobs.flush else none
  | .flush => if w.closing then some w.flush else none

def machine : Machine Worker Action where
  init := {}
  step := step

namespace Worker

variable {w w' : Worker} {job : JobId} {call : Call}

/-- Jobs that wait for a slot, or for their task to run. -/
def queued (w : Worker) : List JobId := w.capacity.waiters ++ w.resubmissions

/-! ## What the methods change -/

theorem release_eq (hrejected : w.capacity.rejected = []) (job : JobId) :
    w.release job = { w with
      capacity := { w.capacity with waiters := w.capacity.waiters.tail }
      resubmissions := w.resubmissions ++ w.capacity.waiters.head?.toList } := by
  unfold release NativeQueueCapacity.release setCapacity
  rw [if_neg (by rw [hrejected]; exact List.not_mem_nil)]

theorem queued_release (hrejected : w.capacity.rejected = []) (job : JobId) :
    (w.release job).queued.Perm w.queued := by
  rw [release_eq hrejected]
  unfold queued
  dsimp only
  rcases w.capacity.waiters with _ | ⟨first, rest⟩
  · simp
  · rw [List.tail_cons, List.head?_cons, Option.toList_some, ← List.append_assoc, List.cons_append]
    exact List.perm_append_singleton first _

theorem complete_eq (w : Worker) (job : JobId) :
    (w.complete job).jobs = w.jobs ∧ (w.complete job).capacity = w.capacity ∧
      (w.complete job).resubmissions = w.resubmissions ∧ (w.complete job).alive = w.alive ∧
      (w.complete job).closing = w.closing := by
  unfold complete
  split
  · split_ifs <;> exact ⟨rfl, rfl, rfl, rfl, rfl⟩
  · exact ⟨rfl, rfl, rfl, rfl, rfl⟩

theorem finishJob_complete (w : Worker) (job job' : JobId) :
    (w.complete job').finishJob job = (w.finishJob job).complete job' := by
  unfold complete
  dsimp only [finishJob]
  split
  · split_ifs <;> rfl
  · rfl

theorem keys_finishJob_sublist (w : Worker) (job : JobId) :
    (w.finishJob job).jobs.keys.Sublist w.jobs.keys :=
  (Dict.drop_sublist job w.jobs.entries).map _

theorem notMem_keys_finishJob (w : Worker) (job : JobId) : job ∉ (w.finishJob job).jobs.keys := by
  rw [Dict.mem_keys, not_not]
  exact Dict.get?_erase_self _ _

/-! ## The invariant -/

def submitted (w : Worker) (job : JobId) : Bool := (w.calls job).any (·.submitted)

def completed (w : Worker) (job : JobId) : Bool := (w.calls job).any (·.resultFuture = .done)

/-- What holds of the jobs, the queue and the calls. -/
structure Core (w : Worker) : Prop where
  rejected : w.capacity.rejected = []
  /-- A job is in one place at most. -/
  nodup : (w.queued ++ w.jobs.keys).Nodup
  known : ∀ job ∈ w.queued ++ w.jobs.keys, w.submitted job = true
  fresh : ∀ job call, w.calls job = some call → call.submitted = false →
    call.resultFuture = .pending
  registered : ∀ job registration call, w.jobs.get? job = some registration →
    w.calls job = some call → (call.cancelled = false → call.resultFuture = .pending) ∧
      (registration.callbackError = false → registration.verdict ≠ none →
        call.pendingResult = registration.verdict)
  submissions : ∀ job, w.submissions job + w.queued.count job ≤
    (w.submitted job).toNat + w.rejections job
  completions : ∀ job, w.completions job = (w.completed job).toNat

/-- While the worker is alive and open, something will wake the waiters. -/
def Driven (w : Worker) : Prop :=
  w.capacity.waiters ≠ [] → w.alive = true →
    w.closing = true ∨ w.jobs.keys ≠ [] ∨ w.resubmissions ≠ []

theorem core_init : Core {} where
  rejected := rfl
  nodup := List.nodup_nil
  known job h := absurd h List.not_mem_nil
  fresh job call h := absurd h (Option.some_ne_none call).symm
  registered job registration call h := by simp [Dict.get?_empty] at h
  submissions job := by simp [queued]
  completions job := rfl

/-- Jobs are moved within the queue, or leave it; nothing else changes. -/
theorem Core.moved (h : w.Core) (hrejected : w'.capacity.rejected = [])
    (hqueued : w'.queued.Subperm w.queued) (hjobs : w'.jobs = w.jobs) (hcalls : w'.calls = w.calls)
    (hsubmissions : w'.submissions = w.submissions) (hrejections : w'.rejections = w.rejections)
    (hcompletions : w'.completions = w.completions) : w'.Core where
  rejected := hrejected
  nodup := by
    rw [hjobs]
    obtain ⟨l, hperm, hsub⟩ := hqueued.append (List.Subperm.refl w.jobs.keys)
    exact hperm.nodup_iff.1 (h.nodup.sublist hsub)
  known job hmem := by
    unfold submitted
    rw [hcalls]
    apply h.known job
    rw [hjobs] at hmem
    rcases List.mem_append.1 hmem with hmem | hmem
    · exact List.mem_append_left _ (hqueued.subset hmem)
    · exact List.mem_append_right _ hmem
  fresh job call hcall := h.fresh job call (hcalls ▸ hcall)
  registered job registration call hget hcall :=
    h.registered job registration call (hjobs ▸ hget) (hcalls ▸ hcall)
  submissions job := by
    unfold submitted
    rw [hsubmissions, hrejections, hcalls]
    have hcount := hqueued.count_le job
    have hold := h.submissions job
    unfold submitted at hold
    omega
  completions job := by
    unfold completed
    rw [hcompletions, hcalls]
    exact h.completions job

theorem Core.release (h : w.Core) (job : JobId) : (w.release job).Core := by
  have hperm := queued_release h.rejected job
  rw [release_eq h.rejected] at hperm ⊢
  exact h.moved h.rejected hperm.subperm rfl rfl rfl rfl rfl

/-- After a release something drives the waiters. -/
theorem driven_release (hrejected : w.capacity.rejected = []) (job : JobId) :
    (w.release job).Driven := by
  intro hne _
  right
  right
  rw [release_eq hrejected] at hne ⊢
  rcases hwaiters : w.capacity.waiters with _ | ⟨first, rest⟩
  · rw [hwaiters] at hne
    exact absurd rfl hne
  · simp

theorem Core.discard (h : w.Core) (job : JobId) : (w.discard job).Core :=
  h.moved h.rejected ((List.erase_sublist).append_right _).subperm rfl rfl rfl rfl rfl

theorem Driven.discard (h : w.Driven) (job : JobId) : (w.discard job).Driven := by
  intro hne
  apply h
  intro hnil
  apply hne
  show w.capacity.waiters.erase job = []
  rw [hnil, List.erase_nil]

theorem Core.flush (h : w.Core) : w.flush.Core := by
  refine h.moved rfl ?_ rfl rfl rfl rfl rfl
  show ([] ++ (w.resubmissions ++ w.capacity.waiters)).Subperm w.queued
  rw [List.nil_append]
  exact List.perm_append_comm.subperm

theorem Core.finishJob (h : w.Core) (job : JobId) : (w.finishJob job).Core where
  rejected := h.rejected
  nodup := h.nodup.sublist ((keys_finishJob_sublist w job).append_left _)
  known job' hmem := h.known job' (((keys_finishJob_sublist w job).append_left _).subset hmem)
  fresh := h.fresh
  registered job' registration call hget hcall := by
    refine h.registered job' registration call ?_ hcall
    replace hget : (w.jobs.erase job).get? job' = some registration := hget
    rw [Dict.get?_erase] at hget
    split_ifs at hget
    exact hget
  submissions := h.submissions
  completions := h.completions

/-! ## Changes of a call -/

theorem mem_keys_of_get? {registration : Registration} (h : w.jobs.get? job = some registration) :
    job ∈ w.jobs.keys :=
  Dict.mem_keys.2 (by rw [h]; exact Option.some_ne_none _)

theorem setCall_calls (w : Worker) (job job' : JobId) (call : Call) :
    (w.setCall job call).calls job' = if job' = job then some call else w.calls job' :=
  Function.update_apply _ _ _ _

theorem submitted_setCall (hsubmitted : w.submitted job = true → call.submitted = true)
    {job' : JobId} (h : w.submitted job' = true) : (w.setCall job call).submitted job' = true := by
  unfold submitted
  rw [setCall_calls]
  split_ifs with heq
  · exact hsubmitted (heq ▸ h)
  · exact h

theorem Core.setCall (h : w.Core) (hsubmitted : w.submitted job = true → call.submitted = true)
    (hcompleted : (call.resultFuture = .done : Bool) = w.completed job)
    (hfresh : call.submitted = false → call.resultFuture = .pending)
    (hregistered : ∀ registration, w.jobs.get? job = some registration →
      (call.cancelled = false → call.resultFuture = .pending) ∧
        (registration.callbackError = false → registration.verdict ≠ none →
          call.pendingResult = registration.verdict)) :
    (w.setCall job call).Core where
  rejected := h.rejected
  nodup := h.nodup
  known job' hmem := submitted_setCall hsubmitted (h.known job' hmem)
  fresh job' c hc := by
    rw [setCall_calls] at hc
    split_ifs at hc
    · obtain rfl := Option.some.inj hc
      exact hfresh
    · exact h.fresh job' c hc
  registered job' registration c hget hc := by
    rw [setCall_calls] at hc
    split_ifs at hc with heq
    · obtain rfl := Option.some.inj hc
      exact hregistered registration (heq ▸ hget)
    · exact h.registered job' registration c hget hc
  submissions job' := by
    apply (h.submissions job').trans (Nat.add_le_add_right _ _)
    exact Bool.toNat_le_toNat (submitted_setCall hsubmitted)
  completions job' := by
    show w.completions job' = _
    rw [h.completions]
    unfold completed at hcompleted ⊢
    rw [setCall_calls]
    split_ifs with heq
    · rw [heq, ← hcompleted]
      rfl
    · rfl

theorem Core.complete (h : w.Core) (hjob : job ∉ w.jobs.keys) (hsubmitted : w.submitted job = true) :
    (w.complete job).Core := by
  unfold Worker.complete
  split
  · rename_i call hcall
    by_cases hpending : call.resultFuture = .pending
    · rw [if_pos hpending]
      have hcallSubmitted : call.submitted = true := by
        unfold submitted at hsubmitted
        rwa [hcall, Option.any_some] at hsubmitted
      have hkeeps : ∀ job', w.submitted job' = true →
          (w.setCall job { call with resultFuture := .done }).submitted job' = true := by
        intro job' h'
        apply submitted_setCall _ h'
        exact fun _ => hcallSubmitted
      refine ⟨h.rejected, h.nodup, fun job' hmem => ?_, fun job' c hc hc' => ?_,
        fun job' registration c hget hc => ?_, fun job' => ?_, fun job' => ?_⟩
      · exact hkeeps job' (h.known job' hmem)
      · rw [show (_ : Worker).calls = (w.setCall job _).calls from rfl, setCall_calls] at hc
        split_ifs at hc
        · obtain rfl := Option.some.inj hc
          exact absurd hc' (by simp [hcallSubmitted])
        · exact h.fresh job' c hc hc'
      · rw [show (_ : Worker).calls = (w.setCall job _).calls from rfl, setCall_calls] at hc
        split_ifs at hc with heq
        · replace hget : w.jobs.get? job = some registration := heq ▸ hget
          exact absurd (mem_keys_of_get? hget) hjob
        · exact h.registered job' registration c hget hc
      · apply (h.submissions job').trans (Nat.add_le_add_right _ _)
        exact Bool.toNat_le_toNat (hkeeps job')
      · show Function.update w.completions job (w.completions job + 1) job' =
          ((w.setCall job _).completed job').toNat
        unfold completed
        rw [Function.update_apply, setCall_calls]
        split_ifs with heq
        · have hold := h.completions job
          rw [completed, hcall, Option.any_some, hpending] at hold
          rw [hold]
          rfl
        · exact h.completions job'
    · rw [if_neg hpending]
      exact h
  · exact h

theorem submitted_complete (w : Worker) (job job' : JobId) :
    (w.complete job).submitted job' = w.submitted job' := by
  unfold Worker.complete
  split
  · rename_i call hcall
    split_ifs
    · show ((w.setCall job _).calls job').any _ = _
      rw [setCall_calls]
      split_ifs with heq
      · rw [submitted, heq, hcall]
        rfl
      · rfl
    · rfl
  · rfl

theorem Core.failJob (h : w.Core) (hsubmitted : w.submitted job = true) : (w.failJob job).Core :=
  (h.finishJob job).complete (notMem_keys_finishJob w job) hsubmitted

theorem Core.failAllJobs (h : w.Core) : w.failAllJobs.Core := by
  unfold Worker.failAllJobs
  have hsubmitted : ∀ job ∈ w.jobs.keys, w.submitted job = true := fun job hmem =>
    h.known job (List.mem_append_right _ hmem)
  revert hsubmitted
  generalize w.jobs.keys = jobs
  intro hsubmitted
  induction jobs generalizing w with
  | nil => exact h
  | cons job jobs ih =>
    apply ih (h.failJob (hsubmitted job List.mem_cons_self))
    intro job' hmem
    rw [Worker.failJob, onError, submitted_complete]
    exact hsubmitted job' (List.mem_cons_of_mem _ hmem)

theorem Core.submit (h : w.Core) (hsubmitted : w.submitted job = true) (hqueued : job ∉ w.queued)
    (hcall : ∀ call, w.calls job = some call → call.cancelled = false →
      call.resultFuture = .pending)
    (hroom : w.submissions job ≤ w.rejections job) (hsubmit : w.submit job = some w') :
    w'.Core := by
  unfold Worker.submit at hsubmit
  split_ifs at hsubmit with hclosing hjob
  obtain rfl := Option.some.inj hsubmit
  have hnew : w.jobs.get? job = none := Dict.get?_eq_none.2 hjob
  have hkeys : (w.jobs.set job {}).keys = w.jobs.keys ++ [job] := Dict.keys_set_new hnew _
  refine ⟨h.rejected, ?_, fun job' hmem => ?_, h.fresh, fun job' registration call hget hc => ?_,
    fun job' => ?_, h.completions⟩
  · show (w.queued ++ (w.jobs.set job {}).keys).Nodup
    rw [hkeys, ← List.append_assoc]
    apply h.nodup.append (List.nodup_singleton _)
    intro x hx hx'
    rw [List.mem_singleton.1 hx'] at hx
    exact (List.mem_append.1 hx).elim hqueued hjob
  · replace hmem : job' ∈ w.queued ++ (w.jobs.set job {}).keys := hmem
    rw [hkeys, ← List.append_assoc] at hmem
    rcases List.mem_append.1 hmem with hmem | hmem
    · exact h.known job' hmem
    · exact List.mem_singleton.1 hmem ▸ hsubmitted
  · replace hget : (w.jobs.set job {}).get? job' = some registration := hget
    rw [Dict.get?_set] at hget
    split_ifs at hget with heq
    · obtain rfl := Option.some.inj hget
      exact ⟨hcall call (heq ▸ hc), fun _ hverdict => absurd rfl hverdict⟩
    · exact h.registered job' registration call hget hc
  · show Function.update w.submissions job (w.submissions job + 1) job' + w.queued.count job' ≤
      (w.submitted job').toNat + w.rejections job'
    rw [Function.update_apply]
    split_ifs with heq
    · rw [heq, List.count_eq_zero.2 hqueued, hsubmitted, Bool.toNat_true]
      omega
    · exact h.submissions job'

/-! ## Lines -/

theorem notMem_queued (h : w.Core) (hjob : job ∈ w.jobs.keys) : job ∉ w.queued := by
  intro hmem
  exact (List.nodup_append.1 h.nodup).2.2 job hmem job hjob rfl

/-- The registration changes what it knows of its lines. -/
theorem Core.setRegistration (h : w.Core) {registration registration' : Registration}
    (hget : w.jobs.get? job = some registration) (hcall : w.calls job = some call)
    (hresult : registration'.callbackError = false → registration'.verdict ≠ none →
      call.pendingResult = registration'.verdict) :
    Core { w with jobs := w.jobs.set job registration' } := by
  have hkeys : (w.jobs.set job registration').keys.Perm w.jobs.keys := by
    have hset := (Dict.entries_set_perm w.jobs job registration').map Prod.fst
    have hold := (Dict.entries_perm hget).map Prod.fst
    exact hset.trans hold.symm
  refine ⟨h.rejected, ?_, fun job' hmem => ?_, h.fresh, fun job' r c hget' hc => ?_, h.submissions,
    h.completions⟩
  · exact ((hkeys.append_left w.queued).nodup_iff).2 h.nodup
  · exact h.known job' ((hkeys.append_left w.queued).subset hmem)
  · replace hget' : (w.jobs.set job registration').get? job' = some r := hget'
    rw [Dict.get?_set] at hget'
    split_ifs at hget' with heq
    · obtain rfl := Option.some.inj hget'
      obtain rfl : call = c := Option.some.inj (hcall.symm.trans (heq ▸ hc))
      exact ⟨(h.registered job registration call hget hcall).1, hresult⟩
    · exact h.registered job' r c hget' hc

/-- A rejected job is parked, or it is resubmitted when nobody else is registered. -/
theorem park_released (hrejected : w.capacity.rejected = []) (hjob : job ∉ w.capacity.waiters)
    (other : Bool) :
    (w.setCapacity (w.capacity.park job false other)).release job =
      if other then { w with capacity := { w.capacity with waiters := w.capacity.waiters ++ [job] } }
      else { w with resubmissions := w.resubmissions ++ [job] } := by
  obtain ⟨alive, closing, ⟨waiters, rejected⟩, jobs, resubmissions, calls, submissions, rejections,
    completions⟩ := w
  obtain rfl : rejected = [] := hrejected
  replace hjob : job ∉ waiters := hjob
  cases other with
  | false => simp [NativeQueueCapacity.park, setCapacity, release, NativeQueueCapacity.release]
  | true => simp [NativeQueueCapacity.park, setCapacity, release, NativeQueueCapacity.release, hjob]

/-- The queue gains a job that was rejected. -/
theorem Core.requeue (h : w.Core) (hjob : job ∉ w.queued ++ w.jobs.keys)
    (hsubmitted : w.submitted job = true) (hrejected : w'.capacity.rejected = [])
    (hqueued : w'.queued.Perm (job :: w.queued)) (hjobs : w'.jobs = w.jobs)
    (hcalls : w'.calls = w.calls) (hsubmissions : w'.submissions = w.submissions)
    (hrejections : w'.rejections = Function.update w.rejections job (w.rejections job + 1))
    (hcompletions : w'.completions = w.completions) : w'.Core := by
  have hperm : (w'.queued ++ w'.jobs.keys).Perm (job :: (w.queued ++ w.jobs.keys)) := by
    rw [hjobs]
    exact hqueued.append_right _
  refine ⟨hrejected, ?_, fun job' hmem => ?_, fun job' call hcall => ?_,
    fun job' registration call hget hcall => ?_, fun job' => ?_, fun job' => ?_⟩
  · exact hperm.nodup_iff.2 (List.nodup_cons.2 ⟨hjob, h.nodup⟩)
  · unfold submitted
    rw [hcalls]
    rcases List.mem_cons.1 (hperm.subset hmem) with rfl | hmem
    · exact hsubmitted
    · exact h.known job' hmem
  · exact h.fresh job' call (hcalls ▸ hcall)
  · exact h.registered job' registration call (hjobs ▸ hget) (hcalls ▸ hcall)
  · have hold := h.submissions job'
    unfold submitted at hold ⊢
    rw [hsubmissions, hrejections, hcalls, hqueued.count_eq, List.count_cons, Function.update_apply]
    by_cases heq : job' = job
    · subst heq
      simp only [beq_self_eq_true, if_true]
      omega
    · have hne : (job == job') = false := beq_eq_false_iff_ne.2 (Ne.symm heq)
      rw [if_neg heq, hne]
      simp only [Bool.false_eq_true, if_false]
      omega
  · unfold completed
    rw [hcompletions, hcalls]
    exact h.completions job'

end Worker

end Sunpack.Runner
