import Sunpack.Runner.Backpressure

/-!
# No rejected job is stranded

The invariant of `Backpressure` over every step, and what it says of a parked job.
-/

namespace Sunpack.Runner.Worker

open Lib

variable {w w' : Worker} {job : JobId} {call : Call}

/-! ## Lines -/

theorem submitted_iff (hcall : w.calls job = some call) :
    w.submitted job = true ↔ call.submitted = true := by
  unfold submitted
  rw [hcall, Option.any_some]

theorem completed_eq (hcall : w.calls job = some call) :
    (call.resultFuture = .done : Bool) = w.completed job := by
  unfold completed
  rw [hcall, Option.any_some]

/-- The state that a registered job leaves, with its result read. -/
theorem Core.finished (h : w.Core) (hcall : w.calls job = some call) (hjob : job ∈ w.jobs.keys) :
    ((w.finishJob job).setCall job { call with pendingResult := none }).Core := by
  apply (h.finishJob job).setCall
  · exact fun _ => (submitted_iff hcall).1 (h.known job (List.mem_append_right _ hjob))
  · show (call.resultFuture = .done : Bool) = w.completed job
    exact completed_eq hcall
  · exact h.fresh job call hcall
  · intro registration hget
    exact absurd (mem_keys_of_get? hget) (notMem_keys_finishJob w job)

theorem submitted_finished (h : w.Core) (hcall : w.calls job = some call)
    (hjob : job ∈ w.jobs.keys) :
    ((w.finishJob job).setCall job { call with pendingResult := none }).submitted job = true := by
  have hsubmitted := h.known job (List.mem_append_right _ hjob)
  apply submitted_setCall _ hsubmitted
  exact fun _ => (submitted_iff hcall).1 hsubmitted

theorem onJobFinished_complete {verdict : Verdict} (hpending : call.pendingResult = some verdict)
    (h : call.cancelled = true ∨ verdict = .admitted) :
    w.onJobFinished job call =
      (true, (w.setCall job { call with pendingResult := none }).complete job) := by
  unfold onJobFinished
  rw [hpending]
  apply if_neg
  rcases h with h | h <;> simp [h]

theorem onJobFinished_park (hpending : call.pendingResult = some .rejected)
    (hcancelled : call.cancelled = false) (hfuture : call.resultFuture = .pending) :
    w.onJobFinished job call =
      (true, { (w.setCall job { call with pendingResult := none }).setCapacity
          (w.capacity.park job false (w.hasOtherJobs job)) with
        rejections := Function.update w.rejections job (w.rejections job + 1) }) := by
  unfold onJobFinished
  rw [hpending]
  dsimp only
  rw [if_pos (by simp [hcancelled]), hfuture]
  rfl

/-- The end of a job that is not parked. -/
theorem dispatchLine_released {registration : Registration}
    (hget : w.jobs.get? job = some registration) (hcall : w.calls job = some call)
    (raises : Bool)
    (hadmitted : registration.callbackError = true ∨ raises = true ∨ call.cancelled = true ∨
      call.pendingResult ≠ some .rejected) :
    w.dispatchLine job .jobFinished raises = (w.failJob job).release job ∨
      w.dispatchLine job .jobFinished raises =
        (((w.finishJob job).setCall job { call with pendingResult := none }).complete job).release
          job := by
  unfold dispatchLine
  rw [hget, hcall]
  dsimp only
  by_cases hraises : (registration.callbackError || raises) = true
  · rw [if_pos hraises]
    exact .inl rfl
  · rw [if_neg hraises]
    rcases hpending : call.pendingResult with _ | verdict
    · left
      rw [onJobFinished, hpending]
      rfl
    · have hcomplete : call.cancelled = true ∨ verdict = .admitted := by
        rcases hadmitted with h | h | h | h
        · exact absurd (by rw [h, Bool.true_or]) hraises
        · exact absurd (by rw [h, Bool.or_true]) hraises
        · exact .inl h
        · cases verdict with
          | rejected => exact absurd hpending h
          | admitted => exact .inr rfl
      right
      rw [onJobFinished_complete hpending hcomplete]
      show ((Worker.complete _ job).finishJob job).release job = _
      rw [finishJob_complete]
      rfl

/-- The end of a job that was rejected: it waits, or it is resubmitted when no other is left. -/
theorem dispatchLine_parked (h : w.Core) {registration : Registration}
    (hget : w.jobs.get? job = some registration) (hcall : w.calls job = some call)
    (herror : registration.callbackError = false) (hcancelled : call.cancelled = false)
    (hpending : call.pendingResult = some .rejected) :
    w.dispatchLine job .jobFinished false =
      let w' := { (w.finishJob job).setCall job { call with pendingResult := none } with
        rejections := Function.update w.rejections job (w.rejections job + 1) }
      if w.hasOtherJobs job then
        { w' with capacity := { w.capacity with waiters := w.capacity.waiters ++ [job] } }
      else { w' with resubmissions := w.resubmissions ++ [job] } := by
  have hfuture := (h.registered job registration call hget hcall).1 hcancelled
  have hqueued := notMem_queued h (mem_keys_of_get? hget)
  have hwaiters : job ∉ w.capacity.waiters := fun hmem =>
    hqueued (List.mem_append_left _ hmem)
  unfold dispatchLine
  rw [hget, hcall]
  dsimp only
  rw [herror, Bool.or_false, if_neg Bool.false_ne_true,
    onJobFinished_park hpending hcancelled hfuture]
  let w' : Worker := { (w.finishJob job).setCall job { call with pendingResult := none } with
    rejections := Function.update w.rejections job (w.rejections job + 1) }
  have hrejected : w'.capacity.rejected = [] := h.rejected
  have hnew : job ∉ w'.capacity.waiters := hwaiters
  exact park_released hrejected hnew (w.hasOtherJobs job)

theorem keys_set_ne_nil (w : Worker) (job : JobId) (registration : Registration) :
    (w.jobs.set job registration).keys ≠ [] := by
  have hmem : job ∈ (w.jobs.set job registration).keys :=
    Dict.mem_keys.2 (by rw [Dict.get?_set_self]; exact Option.some_ne_none _)
  exact List.ne_nil_of_mem hmem

theorem Core.dispatchResult (h : w.Core) {registration : Registration}
    (hget : w.jobs.get? job = some registration) (hcall : w.calls job = some call)
    (hverdict : registration.verdict = none) (verdict : Verdict) (raises : Bool) :
    (w.dispatchLine job (.result verdict) raises).Core ∧
      (w.dispatchLine job (.result verdict) raises).Driven := by
  have hdriven : ∀ w' : Worker, ∀ registration', w'.jobs = w.jobs.set job registration' →
      w'.Driven := by
    intro w' registration' hjobs _ _
    right
    left
    rw [hjobs]
    exact keys_set_ne_nil w job registration'
  unfold Worker.dispatchLine
  rw [hget, hcall]
  dsimp only
  by_cases herror : registration.callbackError = true
  · rw [if_pos herror]
    refine ⟨h.setRegistration hget hcall ?_, hdriven _ _ rfl⟩
    intro hfalse
    exact absurd (herror.symm.trans hfalse) (by decide)
  · rw [if_neg herror]
    by_cases hraises : raises = true
    · rw [if_pos hraises]
      refine ⟨h.setRegistration hget hcall ?_, hdriven _ _ rfl⟩
      intro hfalse
      cases hfalse
    · rw [if_neg hraises]
      refine ⟨?_, hdriven _ _ rfl⟩
      have hread : (w.setCall job { call with pendingResult := some verdict }).Core := by
        apply h.setCall
        · exact (submitted_iff hcall).1
        · show (call.resultFuture = .done : Bool) = w.completed job
          exact completed_eq hcall
        · exact h.fresh job call hcall
        · intro registration' hget'
          obtain rfl := Option.some.inj (hget.symm.trans hget')
          exact ⟨(h.registered job registration call hget hcall).1, fun _ hne => absurd hverdict hne⟩
      have hnow : (w.setCall job { call with pendingResult := some verdict }).calls job =
          some { call with pendingResult := some verdict } := by
        rw [setCall_calls, if_pos rfl]
      exact hread.setRegistration hget hnow fun _ _ => rfl

theorem Core.dispatchParked (h : w.Core) {registration : Registration}
    (hget : w.jobs.get? job = some registration) (hcall : w.calls job = some call)
    (herror : registration.callbackError = false) (hcancelled : call.cancelled = false)
    (hpending : call.pendingResult = some .rejected) :
    (w.dispatchLine job .jobFinished false).Core ∧
      (w.dispatchLine job .jobFinished false).Driven := by
  have hjob := mem_keys_of_get? hget
  have hfinished := h.finished hcall hjob
  have hnew : job ∉ w.queued ++ (w.finishJob job).jobs.keys := by
    rw [List.mem_append, not_or]
    exact ⟨notMem_queued h hjob, notMem_keys_finishJob w job⟩
  rw [dispatchLine_parked h hget hcall herror hcancelled hpending]
  dsimp only
  by_cases hother : w.hasOtherJobs job = true
  · rw [if_pos hother]
    refine ⟨hfinished.requeue hnew (submitted_finished h hcall hjob) h.rejected ?_ rfl rfl rfl rfl
      rfl, ?_⟩
    · show (w.capacity.waiters ++ [job] ++ w.resubmissions).Perm
        (job :: (w.capacity.waiters ++ w.resubmissions))
      rw [List.append_assoc]
      exact List.perm_middle
    · intro _ _
      right
      left
      obtain ⟨other, hmem, hne⟩ := List.any_eq_true.1 hother
      have hkept : other ∈ (w.jobs.erase job).keys := by
        rw [Dict.mem_keys, Dict.get?_erase_of_ne _ (of_decide_eq_true hne)]
        exact Dict.mem_keys.1 hmem
      exact List.ne_nil_of_mem hkept
  · rw [if_neg hother]
    refine ⟨hfinished.requeue hnew (submitted_finished h hcall hjob) h.rejected ?_ rfl rfl rfl rfl
      rfl, ?_⟩
    · show (w.capacity.waiters ++ (w.resubmissions ++ [job])).Perm
        (job :: (w.capacity.waiters ++ w.resubmissions))
      rw [← List.append_assoc]
      exact List.perm_append_singleton job _
    · intro _ _
      right
      right
      exact List.append_ne_nil_of_right_ne_nil _ (List.cons_ne_nil _ _)

theorem Core.dispatchLine (h : w.Core) (hd : w.Driven) (line : Line) (raises : Bool)
    (hline : ∀ registration, w.jobs.get? job = some registration →
      (registration.verdict = none ↔ line ≠ .jobFinished)) :
    (w.dispatchLine job line raises).Core ∧ (w.dispatchLine job line raises).Driven := by
  rcases hget : w.jobs.get? job with _ | registration
  · unfold Worker.dispatchLine
    rw [hget]
    dsimp only
    split_ifs
    · exact ⟨h.release job, driven_release h.rejected job⟩
    · exact ⟨h, hd⟩
  have hjob : job ∈ w.jobs.keys := mem_keys_of_get? hget
  have hsubmitted : w.submitted job = true := h.known job (List.mem_append_right _ hjob)
  rcases hcall : w.calls job with _ | call
  · rw [submitted, hcall] at hsubmitted
    cases hsubmitted
  cases line with
  | result verdict => exact h.dispatchResult hget hcall ((hline registration hget).2 (by simp)) _ _
  | jobFinished =>
    by_cases hparked : registration.callbackError = false ∧ raises = false ∧
      call.cancelled = false ∧ call.pendingResult = some .rejected
    · obtain ⟨herror, rfl, hcancelled, hpending⟩ := hparked
      exact h.dispatchParked hget hcall herror hcancelled hpending
    · have hreleased := dispatchLine_released hget hcall raises (by
        revert hparked
        cases registration.callbackError <;> cases raises <;> cases call.cancelled <;> simp)
      have hfailed : (w.failJob job).Core := h.failJob hsubmitted
      have hcompleted := (h.finished hcall hjob).complete (notMem_keys_finishJob w job)
        (submitted_finished h hcall hjob)
      rcases hreleased with hreleased | hreleased <;> rw [hreleased]
      · exact ⟨hfailed.release job, driven_release hfailed.rejected job⟩
      · exact ⟨hcompleted.release job, driven_release hcompleted.rejected job⟩

/-! ## Submissions -/

theorem driven_submit (hsubmit : w.submit job = some w') : w'.Driven := by
  unfold submit at hsubmit
  split_ifs at hsubmit
  obtain rfl := Option.some.inj hsubmit
  intro _ _
  right
  left
  exact keys_set_ne_nil w job {}

theorem closing_of_submit_none (hjob : job ∉ w.jobs.keys) (hsubmit : w.submit job = none) :
    w.closing = true := by
  unfold submit at hsubmit
  split_ifs at hsubmit with hclosing
  exact hclosing

/-- A task of `spawn_resubmission` that runs. -/
theorem Core.resubmit (h : w.Core) (hjob : job ∈ w.resubmissions) (hcall : w.calls job = some call) :
    let w' := { w with resubmissions := w.resubmissions.erase job }
    (w'.resubmitAfterBackpressure job call).Core ∧
      (w'.resubmitAfterBackpressure job call).Driven := by
  intro w'
  have hmem : job ∈ w.queued := List.mem_append_right _ hjob
  have hkeys : job ∉ w.jobs.keys := fun hkey => notMem_queued h hkey hmem
  have hsubmitted : w.submitted job = true := h.known job (List.mem_append_left _ hmem)
  have hperm : w.queued.Perm (job :: w'.queued) := by
    refine ((List.perm_cons_erase hjob).append_left w.capacity.waiters).trans ?_
    exact List.perm_middle
  have hw' : w'.Core :=
    h.moved h.rejected ((List.sublist_cons_self _ _).subperm.trans hperm.symm.subperm) rfl rfl rfl
      rfl rfl
  have hnodup : (job :: w'.queued).Nodup :=
    hperm.nodup_iff.1 (List.nodup_append.1 h.nodup).1
  have hnew : job ∉ w'.queued := (List.nodup_cons.1 hnodup).1
  unfold resubmitAfterBackpressure
  by_cases hdone : (call.cancelled || (call.resultFuture ≠ .pending : Bool)) = true
  · rw [if_pos hdone]
    exact ⟨hw'.release job, driven_release hw'.rejected job⟩
  rw [if_neg hdone]
  have honError : (w'.onError job).Core := hw'.complete hkeys hsubmitted
  obtain ⟨-, -, -, halive, hclosing⟩ := complete_eq w' job
  by_cases hdead : (!w'.alive) = true
  · rw [if_pos hdead]
    refine ⟨honError, fun _ h' => ?_⟩
    rw [onError, halive] at h'
    rw [h'] at hdead
    cases hdead
  rw [if_neg hdead]
  rcases hsubmit : w'.submit job with _ | w''
  · refine ⟨honError, fun _ _ => .inl ?_⟩
    show (w'.complete job).closing = true
    rw [hclosing]
    exact closing_of_submit_none hkeys hsubmit
  · refine ⟨hw'.submit hsubmitted hnew ?_ ?_ hsubmit, driven_submit hsubmit⟩
    · intro call' hcall' _
      obtain rfl := Option.some.inj (hcall.symm.trans hcall')
      rw [Bool.or_eq_true, not_or] at hdone
      simpa using hdone.2
    · have hroom := h.submissions job
      rw [hperm.count_eq, List.count_cons_self, List.count_eq_zero.2 hnew, hsubmitted,
        Bool.toNat_true] at hroom
      show w.submissions job ≤ w.rejections job
      omega

/-! ## Steps -/

theorem Core.submitAction (h : w.Core) (hd : w.Driven) (hcall : w.calls job = some call)
    (hnew : call.submitted = false) :
    (((w.setCall job { call with submitted := true }).submit job).getD
        (w.setCall job { call with submitted := true })).Core ∧
      (((w.setCall job { call with submitted := true }).submit job).getD
        (w.setCall job { call with submitted := true })).Driven := by
  have hnot : ¬ w.submitted job = true := by
    rw [submitted_iff hcall, hnew]
    decide
  have hplaces : job ∉ w.queued ++ w.jobs.keys := fun hmem => hnot (h.known job hmem)
  have hset : (w.setCall job { call with submitted := true }).Core := by
    apply h.setCall
    · exact fun _ => rfl
    · show (call.resultFuture = .done : Bool) = w.completed job
      exact completed_eq hcall
    · intro hfalse
      cases hfalse
    · intro registration hget
      exact absurd (List.mem_append_right _ (mem_keys_of_get? hget)) hplaces
  rcases hsubmit : (w.setCall job { call with submitted := true }).submit job with _ | w'
  · exact ⟨hset, hd⟩
  · have hnow : (w.setCall job { call with submitted := true }).calls job =
        some { call with submitted := true } := by
      rw [setCall_calls, if_pos rfl]
    refine ⟨hset.submit ((submitted_iff hnow).2 rfl) ?_ ?_ ?_ hsubmit, ?_⟩
    · exact fun hmem => hplaces (List.mem_append_left _ hmem)
    · intro call' hcall' _
      obtain rfl := Option.some.inj (hnow.symm.trans hcall')
      exact h.fresh job call hcall hnew
    · have hroom := h.submissions job
      rw [Bool.eq_false_of_not_eq_true hnot, Bool.toNat_false] at hroom
      show w.submissions job ≤ w.rejections job
      omega
    · exact driven_submit hsubmit

theorem inv_step {action : Action} (h : w.Core) (hd : w.Driven) (hstep : step w action = some w') :
    w'.Core ∧ w'.Driven := by
  cases action with
  | start job =>
    simp only [step] at hstep
    split at hstep
    · cases hstep
    · rename_i hnone
      obtain rfl := Option.some.inj hstep
      have hnot : w.submitted job = false := by rw [submitted, hnone, Option.any_none]
      refine ⟨h.setCall ?_ ?_ (fun _ => rfl) ?_, hd⟩
      · rw [hnot]
        exact fun hfalse => hfalse
      · rw [completed, hnone]
        rfl
      · intro registration hget
        have hknown := h.known job (List.mem_append_right _ (mem_keys_of_get? hget))
        exact absurd (hknown.symm.trans hnot) (by decide)
  | submit job =>
    simp only [step] at hstep
    split at hstep
    · rename_i call hcall
      split_ifs at hstep with hsubmitted
      obtain rfl := Option.some.inj hstep
      exact h.submitAction hd hcall (Bool.eq_false_of_not_eq_true hsubmitted)
    · cases hstep
  | dispatch job line raises =>
    simp only [step] at hstep
    split at hstep
    · rename_i registration hget
      split_ifs at hstep with hline
      obtain rfl := Option.some.inj hstep
      refine h.dispatchLine hd line raises fun registration' hget' => ?_
      obtain rfl := Option.some.inj (hget.symm.trans hget')
      exact ⟨fun hverdict hfinished => hline ⟨fun _ => hfinished, fun _ => hverdict⟩,
        fun hfinished => by_contra fun hverdict =>
          hline ⟨fun hnone => absurd hnone hverdict, fun hyes => absurd hyes hfinished⟩⟩
    · rename_i hget
      obtain rfl := Option.some.inj hstep
      refine h.dispatchLine hd line raises fun registration' hget' => ?_
      exact absurd (hget.symm.trans hget') (Option.some_ne_none _).symm
  | resubmit job =>
    simp only [step] at hstep
    split_ifs at hstep with hjob
    split at hstep
    · rename_i call hcall
      obtain rfl := Option.some.inj hstep
      exact h.resubmit hjob hcall
    · cases hstep
  | cancel job =>
    simp only [step] at hstep
    split at hstep
    · rename_i call hcall
      obtain rfl := Option.some.inj hstep
      have hset : (w.setCall job { call with cancelled := true }).Core := by
        apply h.setCall
        · exact (submitted_iff hcall).1
        · show (call.resultFuture = .done : Bool) = w.completed job
          exact completed_eq hcall
        · exact h.fresh job call hcall
        · intro registration hget
          refine ⟨fun hfalse => ?_, (h.registered job registration call hget hcall).2⟩
          cases hfalse
      exact ⟨hset.discard job, Driven.discard hd job⟩
    · cases hstep
  | endCancel job =>
    simp only [step] at hstep
    split at hstep
    · rename_i call hcall
      split_ifs at hstep with hended hpending
      · obtain rfl := Option.some.inj hstep
        refine ⟨h.setCall (submitted_iff hcall).1 ?_ ?_ ?_, hd⟩
        · rw [← completed_eq hcall, hpending]
          rfl
        · intro hfalse
          exact absurd (hended.2.1.symm.trans hfalse) (by decide)
        · intro registration hget
          exact absurd (mem_keys_of_get? hget) hended.2.2
      · obtain rfl := Option.some.inj hstep
        exact ⟨h, hd⟩
    · cases hstep
  | resultDone job =>
    simp only [step] at hstep
    split at hstep
    · split_ifs at hstep
      obtain rfl := Option.some.inj hstep
      exact ⟨h.discard job, hd.discard job⟩
    · cases hstep
  | beginClosing =>
    obtain rfl := Option.some.inj hstep
    exact ⟨h.moved h.rejected (List.Subperm.refl _) rfl rfl rfl rfl rfl, fun _ _ => .inl rfl⟩
  | exit =>
    obtain rfl := Option.some.inj hstep
    refine ⟨h.moved h.rejected (List.Subperm.refl _) rfl rfl rfl rfl rfl, fun _ halive => ?_⟩
    cases halive
  | endAbort =>
    simp only [step] at hstep
    split_ifs at hstep
    obtain rfl := Option.some.inj hstep
    exact ⟨h.failAllJobs.flush, fun hne => absurd rfl hne⟩
  | flush =>
    simp only [step] at hstep
    split_ifs at hstep
    obtain rfl := Option.some.inj hstep
    exact ⟨h.flush, fun hne => absurd rfl hne⟩

/-- The invariant of every run. -/
theorem inv_reachable (h : machine.Reachable w) : w.Core ∧ w.Driven := by
  refine h.invariant (P := fun w => w.Core ∧ w.Driven) ?_ ?_
  · exact ⟨core_init, fun hne => absurd rfl hne⟩
  · intro s a t hinv hstep
    exact inv_step hinv.1 hinv.2 hstep

/-! ## What it says of a parked job -/

theorem exists_other (h : w.Core) (hd : w.Driven) (hjob : job ∈ w.capacity.waiters)
    (halive : w.alive = true) :
    w.closing = true ∨ ∃ other, other ≠ job ∧ (other ∈ w.jobs.keys ∨ other ∈ w.resubmissions) := by
  have hnodup := h.nodup
  rw [queued, List.append_assoc] at hnodup
  have hapart := (List.nodup_append.1 hnodup).2.2 job hjob
  rcases hd (List.ne_nil_of_mem hjob) halive with hclosing | hkeys | hresubmissions
  · exact .inl hclosing
  · obtain ⟨other, hmem⟩ := List.exists_mem_of_ne_nil _ hkeys
    refine .inr ⟨other, fun heq => ?_, .inl hmem⟩
    exact hapart other (List.mem_append_right _ hmem) heq.symm
  · obtain ⟨other, hmem⟩ := List.exists_mem_of_ne_nil _ hresubmissions
    refine .inr ⟨other, fun heq => ?_, .inr hmem⟩
    exact hapart other (List.mem_append_left _ hmem) heq.symm

theorem failAllJobs_capacity (w : Worker) : w.failAllJobs.capacity = w.capacity := by
  unfold failAllJobs
  generalize w.jobs.keys = jobs
  induction jobs generalizing w with
  | nil => rfl
  | cons job jobs ih =>
    show (jobs.foldl failJob (w.failJob job)).capacity = w.capacity
    rw [ih, failJob, onError, (complete_eq _ job).2.1]
    rfl

theorem flushed {action : Action} (haction : action = .endAbort ∨ action = .flush)
    (hstep : step w action = some w') :
    w'.capacity.waiters = [] ∧ ∀ job ∈ w.capacity.waiters, job ∈ w'.resubmissions := by
  rcases haction with rfl | rfl <;> simp only [step] at hstep <;> split_ifs at hstep <;>
    obtain rfl := Option.some.inj hstep
  · refine ⟨rfl, fun job hmem => List.mem_append_right _ ?_⟩
    show job ∈ w.failAllJobs.capacity.waiters
    rw [failAllJobs_capacity]
    exact hmem
  · exact ⟨rfl, fun job hmem => List.mem_append_right _ hmem⟩

theorem release_wakes {v : Worker} (hrejected : v.capacity.rejected = [])
    (hcapacity : v.capacity = w.capacity) (hresubmissions : v.resubmissions = w.resubmissions) :
    (v.release job).capacity.waiters = w.capacity.waiters.tail ∧
      (v.release job).resubmissions = w.resubmissions ++ w.capacity.waiters.head?.toList := by
  rw [release_eq hrejected]
  dsimp only
  rw [hcapacity, hresubmissions]
  exact ⟨rfl, rfl⟩

/-- The end of an admitted job frees one slot. -/
theorem finished_wakes (h : w.Core) {raises : Bool}
    (hadmitted : ∀ registration, w.jobs.get? job = some registration →
      registration.verdict = some .admitted)
    (hstep : step w (.dispatch job .jobFinished raises) = some w') :
    w'.capacity.waiters = w.capacity.waiters.tail ∧
      w'.resubmissions = w.resubmissions ++ w.capacity.waiters.head?.toList := by
  simp only [step] at hstep
  split at hstep
  · rename_i registration hget
    split_ifs at hstep
    obtain rfl := Option.some.inj hstep
    have hverdict := hadmitted registration hget
    have hjob : job ∈ w.jobs.keys := mem_keys_of_get? hget
    have hsubmitted : w.submitted job = true := h.known job (List.mem_append_right _ hjob)
    rcases hcall : w.calls job with _ | call
    · rw [submitted, hcall] at hsubmitted
      cases hsubmitted
    have hread := (h.registered job registration call hget hcall).2
    have hcases : registration.callbackError = true ∨ raises = true ∨ call.cancelled = true ∨
        call.pendingResult ≠ some .rejected := by
      cases herror : registration.callbackError with
      | true => exact .inl rfl
      | false =>
        have hpending := hread herror (by rw [hverdict]; exact Option.some_ne_none _)
        rw [hverdict] at hpending
        right
        right
        right
        rw [hpending]
        decide
    rcases dispatchLine_released hget hcall raises hcases with hreleased | hreleased <;>
      rw [hreleased]
    · obtain ⟨-, hcapacity, hresubmissions, -⟩ := complete_eq (w.finishJob job) job
      have hsame : (w.failJob job).capacity = w.capacity := hcapacity
      exact release_wakes (by rw [hsame]; exact h.rejected) hsame hresubmissions
    · obtain ⟨-, hcapacity, hresubmissions, -⟩ :=
        complete_eq ((w.finishJob job).setCall job { call with pendingResult := none }) job
      refine release_wakes ?_ hcapacity hresubmissions
      rw [hcapacity]
      exact h.rejected
  · rename_i hget
    obtain rfl := Option.some.inj hstep
    unfold dispatchLine
    rw [hget]
    exact release_wakes h.rejected rfl rfl

/-- A wakeup that its call no longer needs goes to the next job. -/
theorem resubmit_passes (h : w.Core) (hcall : w.calls job = some call)
    (hdone : call.cancelled = true ∨ call.resultFuture ≠ .pending)
    (hstep : step w (.resubmit job) = some w') :
    w'.capacity.waiters = w.capacity.waiters.tail ∧
      w'.resubmissions = w.resubmissions.erase job ++ w.capacity.waiters.head?.toList := by
  simp only [step, hcall] at hstep
  split_ifs at hstep
  obtain rfl := Option.some.inj hstep
  unfold resubmitAfterBackpressure
  rw [if_pos (by simpa using hdone)]
  have hrejected : ({ w with
      resubmissions := w.resubmissions.erase job } : Worker).capacity.rejected = [] := h.rejected
  exact release_wakes hrejected rfl rfl

/-- No parked job is stranded: another one is registered or about to be resubmitted, unless an abort
or a close is under way, whose end resubmits all of them. -/
theorem no_job_stranded {w : Worker} (h : machine.Reachable w) :
    (∀ job ∈ w.capacity.waiters, w.alive = true → w.closing = true ∨
      ∃ other, other ≠ job ∧ (other ∈ w.jobs.keys ∨ other ∈ w.resubmissions)) ∧
    (∀ action w', action = .endAbort ∨ action = .flush → step w action = some w' →
      w'.capacity.waiters = [] ∧ ∀ job ∈ w.capacity.waiters, job ∈ w'.resubmissions) ∧
    (∀ job raises w', (∀ registration, w.jobs.get? job = some registration →
        registration.verdict = some .admitted) →
      step w (.dispatch job .jobFinished raises) = some w' →
      w'.capacity.waiters = w.capacity.waiters.tail ∧
        w'.resubmissions = w.resubmissions ++ w.capacity.waiters.head?.toList) ∧
    (∀ job call w', w.calls job = some call →
      call.cancelled = true ∨ call.resultFuture ≠ .pending →
      step w (.resubmit job) = some w' →
      w'.capacity.waiters = w.capacity.waiters.tail ∧
        w'.resubmissions = w.resubmissions.erase job ++ w.capacity.waiters.head?.toList) ∧
    ∀ job, w.submissions job + w.queued.count job ≤ 1 + w.rejections job ∧
      w.completions job ≤ 1 := by
  obtain ⟨hcore, hdriven⟩ := inv_reachable h
  refine ⟨fun job => exists_other hcore hdriven, fun action w' => flushed, fun job raises w' => ?_,
    fun job call w' => resubmit_passes hcore, fun job => ⟨?_, ?_⟩⟩
  · exact finished_wakes hcore
  · exact (hcore.submissions job).trans (Nat.add_le_add_right (Bool.toNat_le _) _)
  · rw [hcore.completions]
    exact Bool.toNat_le _

/-- Job 0 is admitted and job 1 is parked. -/
def parkedRun : List Action :=
  [.start 0, .submit 0, .start 1, .submit 1, .dispatch 1 (.result .rejected) false,
    .dispatch 1 .jobFinished false, .dispatch 0 (.result .admitted) false]

theorem no_job_stranded_parked : ∃ w w', machine.exec machine.init parkedRun = some w ∧
    (∃ other, other ≠ 1 ∧ (other ∈ w.jobs.keys ∨ other ∈ w.resubmissions)) ∧
    step w (.dispatch 0 .jobFinished false) = some w' ∧ w'.resubmissions = [1] := by
  obtain ⟨w, w', hexec, hstep, hstate⟩ : ∃ w w', machine.exec machine.init parkedRun = some w ∧
      step w (.dispatch 0 .jobFinished false) = some w' ∧
      (w.capacity.waiters, w.resubmissions, w.alive, w.closing, w.jobs.get? 0) =
        ([1], [], true, false, some ⟨false, some .admitted⟩) :=
    ⟨_, _, rfl, rfl, rfl⟩
  simp only [Prod.mk.injEq] at hstate
  obtain ⟨hwaiters, hresubmissions, halive, hclosing, hget⟩ := hstate
  obtain ⟨hdriven, -, hwakes, -⟩ := no_job_stranded (Machine.Reachable.of_exec hexec)
  refine ⟨w, w', hexec, ?_, hstep, ?_⟩
  · rcases hdriven 1 (by rw [hwaiters]; exact List.mem_cons_self) halive with h | h
    · exact absurd (h.symm.trans hclosing) (by decide)
    · exact h
  · have hadmitted : ∀ registration, w.jobs.get? 0 = some registration →
        registration.verdict = some .admitted := by
      intro registration hget'
      obtain rfl := Option.some.inj (hget.symm.trans hget')
      rfl
    rw [(hwakes 0 false w' hadmitted hstep).2, hwaiters, hresubmissions]
    rfl

/-- Jobs 1 and 2 are parked, the cancellation of job 0 cannot be sent, and the wakeup of job 1 comes
while the abort waits for the process. -/
def abortedRun : List Action :=
  [.start 0, .submit 0, .start 1, .submit 1, .start 2, .submit 2,
    .dispatch 1 (.result .rejected) false, .dispatch 1 .jobFinished false,
    .dispatch 2 (.result .rejected) false, .dispatch 2 .jobFinished false, .cancel 0, .beginClosing,
    .dispatch 0 (.result .admitted) false, .dispatch 0 .jobFinished false, .resubmit 1]

theorem parked_alone : ¬ ∀ w, machine.Reachable w → ∀ job ∈ w.capacity.waiters, w.alive = true →
    ∃ other, other ≠ job ∧ (other ∈ w.jobs.keys ∨ other ∈ w.resubmissions) := by
  intro h
  obtain ⟨w, hexec, hstate⟩ : ∃ w, machine.exec machine.init abortedRun = some w ∧
      (w.capacity.waiters, w.alive, w.jobs.keys, w.resubmissions) = ([2], true, [], []) :=
    ⟨_, rfl, rfl⟩
  simp only [Prod.mk.injEq] at hstate
  obtain ⟨hwaiters, halive, hjobs, hresubmissions⟩ := hstate
  obtain ⟨other, -, hother⟩ :=
    h w (Machine.Reachable.of_exec hexec) 2 (by rw [hwaiters]; exact List.mem_cons_self) halive
  rw [hjobs, hresubmissions] at hother
  exact hother.elim List.not_mem_nil List.not_mem_nil

end Sunpack.Runner.Worker
