import Sunpack.AsyncWork.Broker

/-!
# Jobs and slots

What is true of one job at every place (`JobOk`), and the balance of the admission slots: a slot is
free or reserved in the semaphore, in the hands of a call of `run`, or with a job that is queued or
active.
-/

namespace Sunpack.AsyncWork

open Lib

variable {α ε : Type} {lower : Text → Text}

namespace Loop

/-- The event loop holds the item. -/
def At : Loop ε → Nat → Prop
  | submitting sequence, s => s = sequence
  | rejected sequence _, s => s = sequence
  | _, _ => False

end Loop

/-- One job, with the event loop at `loop`. -/
structure JobOk (loop : Loop ε) (sequence : Nat) (j : Job α ε) : Prop where
  sequence_eq : j.item.sequence = sequence
  unsettled : j.place ≠ .done → j.future = .pending ∧ j.settlements = 0
  settled : j.place = .done → j.future ≠ .pending ∧ j.settlements = 1 ∧ j.worker = .none ∧
    (j.called = true → j.claimed = true)
  queued : j.place = .queued → j.claimed = false ∧ j.called = false ∧ j.worker = .none
  active : j.place = .active → j.worker = .none →
    j.claimed = false ∧ (loop.At sequence ∨ j.called = true)
  working : j.worker ≠ .none → j.claimed = true
  starts_le : j.starts ≤ 1
  starts_eq : j.claimed = false ∨ j.worker = .claimed → j.starts = 0
  here : loop.At sequence → j.place = .active
  submitting : loop = .submitting sequence → j.claimed = false ∧ j.called = false ∧ j.worker = .none

theorem JobOk.quiet {loop loop' : Loop ε} {sequence : Nat} {j : Job α ε} (h : JobOk loop sequence j)
    (hloop : ¬ loop.At sequence) (hloop' : ¬ loop'.At sequence) : JobOk loop' sequence j where
  sequence_eq := h.sequence_eq
  unsettled := h.unsettled
  settled := h.settled
  queued := h.queued
  active hplace hworker := by
    obtain ⟨hclaimed, hat | hcalled⟩ := h.active hplace hworker
    · exact absurd hat hloop
    · exact ⟨hclaimed, .inr hcalled⟩
  working := h.working
  starts_le := h.starts_le
  starts_eq := h.starts_eq
  here hat := absurd hat hloop'
  submitting heq := by
    subst heq
    exact absurd rfl hloop'

namespace World

structure JobsOk (w : World α ε) : Prop where
  known : ∀ sequence, w.loop.At sequence → w.jobs.get? sequence ≠ none
  ok : ∀ sequence j, w.jobs.get? sequence = some j →
    sequence ≤ w.sequence ∧ JobOk w.loop sequence j

def placed (w : World α ε) (p : Place) : Nat := w.jobs.count fun _ j => j.place = p

/-- The calls of `run` that have a slot and do not know it yet. -/
def acquired (w : World α ε) : Nat := w.calls.count fun _ a => a.admission = .acquired

/-- Every slot is somewhere; `hand` of them are in the hands of the section that runs. -/
def Balanced (w : World α ε) (hand : Nat) : Prop :=
  w.pendingSlots.total + w.acquired + w.placed .queued + w.placed .active + hand = w.maxPendingJobs

variable {w : World α ε} {sequence : Nat} {j : Job α ε}

theorem update_jobs (h : w.jobs.get? sequence = some j) (f : Job α ε → Job α ε) :
    w.update sequence f = { w with jobs := w.jobs.set sequence (f j) } := by
  rw [update, h]

theorem placed_set (w : World α ε) (h : w.jobs.get? sequence = some j) (j' : Job α ε) (p : Place) :
    (w.jobs.set sequence j').count (fun _ j => j.place = p) + (if j.place = p then 1 else 0) =
      w.placed p + if j'.place = p then 1 else 0 := by
  have hcount := Dict.count_set w.jobs (fun _ j => decide (j.place = p)) sequence j'
  rw [Dict.holds, h, Option.any_some] at hcount
  simpa [Bool.toNat, placed, Bool.cond_decide] using hcount

theorem Balanced.release {hand : Nat} (h : w.Balanced (hand + 1)) : w.release.Balanced hand := by
  have hslots := Semaphore.total_release w.pendingSlots
  simp only [Balanced, acquired, placed, World.release] at h ⊢
  omega

theorem JobsOk.set (h : w.JobsOk) {w' : World α ε} {j' : Job α ε}
    (hjobs : w'.jobs = w.jobs.set sequence j') (hseq : w.sequence ≤ w'.sequence)
    (hle : sequence ≤ w'.sequence) (hok : JobOk w'.loop sequence j')
    (hother : ∀ s ≠ sequence, w'.loop = w.loop ∨ ¬ w.loop.At s ∧ ¬ w'.loop.At s) : w'.JobsOk where
  known s hat := by
    rw [hjobs, Dict.get?_set]
    split_ifs with heq
    · exact Option.some_ne_none _
    · rcases hother s heq with hloop | ⟨_, hnot⟩
      · exact h.known s (hloop ▸ hat)
      · exact absurd hat hnot
  ok s j hget := by
    rw [hjobs, Dict.get?_set] at hget
    split_ifs at hget with heq
    · obtain rfl := Option.some.inj hget
      rw [heq]
      exact ⟨hle, hok⟩
    · obtain ⟨hs, hj⟩ := h.ok s j hget
      refine ⟨hs.trans hseq, ?_⟩
      rcases hother s heq with hloop | ⟨hnot, hnot'⟩
      · rw [hloop]
        exact hj
      · exact hj.quiet hnot hnot'

theorem JobsOk.quiet (h : w.JobsOk) {w' : World α ε} (hjobs : w'.jobs = w.jobs)
    (hseq : w'.sequence = w.sequence) (hloop : ∀ s, ¬ w.loop.At s) (hloop' : ∀ s, ¬ w'.loop.At s) :
    w'.JobsOk where
  known s hat := absurd hat (hloop' s)
  ok s j hget := by
    rw [hjobs] at hget
    obtain ⟨hs, hj⟩ := h.ok s j hget
    exact ⟨hseq ▸ hs, hj.quiet (hloop s) (hloop' s)⟩

end World

/-! ## Settling -/

namespace Job

variable (j : Job α ε) (future : Future α ε)

@[simp] theorem settle_item : (j.settle future).item = j.item := by
  unfold settle
  split <;> rfl

@[simp] theorem settle_claimed : (j.settle future).claimed = j.claimed := by
  unfold settle
  split <;> rfl

@[simp] theorem settle_called : (j.settle future).called = j.called := by
  unfold settle
  split <;> rfl

@[simp] theorem settle_worker : (j.settle future).worker = j.worker := by
  unfold settle
  split <;> rfl

@[simp] theorem settle_starts : (j.settle future).starts = j.starts := by
  unfold settle
  split <;> rfl

variable {j future}

theorem settle_pending (h : j.future = .pending) :
    j.settle future = { j with future := future, settlements := j.settlements + 1 } := by
  rw [settle, h]

end Job

variable {loop : Loop ε} {sequence : Nat} {j : Job α ε}

theorem JobOk.cancel (h : JobOk loop sequence j) (hplace : j.place = .queued) :
    JobOk loop sequence j.cancel := by
  obtain ⟨hfuture, hsettlements⟩ := h.unsettled (by rw [hplace]; decide)
  obtain ⟨hclaimed, hcalled, hworker⟩ := h.queued hplace
  have hat : ¬ loop.At sequence := fun hat => by
    have hactive := h.here hat
    rw [hplace] at hactive
    exact absurd hactive (by decide)
  rw [Job.cancel, Job.settle_pending hfuture]
  exact {
    sequence_eq := h.sequence_eq
    unsettled := fun hne => absurd rfl hne
    settled := fun _ => ⟨by simp, by simp [hsettlements], hworker, fun hc => by simp [hcalled] at hc⟩
    queued := fun hq => absurd hq (by simp)
    active := fun ha => absurd ha (by simp)
    working := h.working
    starts_le := h.starts_le
    starts_eq := h.starts_eq
    here := fun h => absurd h hat
    submitting := h.submitting }

/-- An active item that was claimed by the one that settles it. -/
theorem JobOk.finish (h : JobOk loop sequence j) (hplace : j.place = .active) {loop' : Loop ε}
    (hat : ¬ loop'.At sequence) {future : Future α ε} (hfuture : future ≠ .pending) :
    JobOk loop' sequence ({ j with claimed := true }.finish future) := by
  obtain ⟨hpending, hsettlements⟩ := h.unsettled (by rw [hplace]; decide)
  rw [Job.finish, @Job.settle_pending α ε { j with claimed := true } future hpending]
  exact {
    sequence_eq := h.sequence_eq
    unsettled := fun hne => absurd rfl hne
    settled := fun _ => ⟨hfuture, by simp [hsettlements], rfl, fun _ => rfl⟩
    queued := fun hq => absurd hq (by simp)
    active := fun ha => absurd ha (by simp)
    working := fun hw => absurd rfl hw
    starts_le := h.starts_le
    starts_eq := fun hs => by simp at hs
    here := fun h => absurd h hat
    submitting := fun heq => absurd (by rw [heq]; rfl) hat }

namespace World

variable {w : World α ε} {hand : Nat}

/-- A queued item is cancelled: it is done, and its slot is free again. -/
theorem cancelItem_spec {item : WorkItem} (h : w.JobsOk) (hbalanced : w.Balanced hand)
    (hget : w.jobs.get? item.sequence = some j) (hplace : j.place = .queued) :
    w.cancelItem item = { w with
        jobs := w.jobs.set item.sequence j.cancel, pendingSlots := w.pendingSlots.release } ∧
      (w.cancelItem item).JobsOk ∧ (w.cancelItem item).Balanced hand ∧
      (w.cancelItem item).placed .queued + 1 = w.placed .queued ∧
      (w.cancelItem item).placed .active = w.placed .active := by
  obtain ⟨hle, hok⟩ := h.ok _ _ hget
  have heq : w.cancelItem item = { w with
      jobs := w.jobs.set item.sequence j.cancel, pendingSlots := w.pendingSlots.release } := by
    rw [cancelItem, update_jobs hget]
    rfl
  have hqueued := placed_set w hget j.cancel .queued
  have hactive := placed_set w hget j.cancel .active
  have htotal := Semaphore.total_release w.pendingSlots
  simp only [hplace, Job.cancel, reduceCtorEq, if_true, if_false] at hqueued hactive
  rw [heq]
  refine ⟨rfl, h.set rfl (Nat.le_refl _) hle (hok.cancel hplace) fun s _ => .inl rfl, ?_, ?_, ?_⟩
  all_goals
    simp only [Balanced, acquired, placed, Job.cancel] at hbalanced hqueued hactive ⊢
    omega

/-- The future of an outcome. -/
def outcomeFuture : Except ε α → Future α ε
  | .ok a => .result a
  | .error e => .exception e

theorem outcomeFuture_ne (outcome : Except ε α) : outcomeFuture outcome ≠ .pending := by
  cases outcome <;> simp [outcomeFuture]

theorem settle_eq (hget : w.jobs.get? sequence = some j) (outcome : Except ε α) :
    w.settle sequence outcome = { w with
      jobs := w.jobs.set sequence (j.finish (outcomeFuture outcome))
      pendingSlots := w.pendingSlots.release
      active := w.active - 1 } := by
  cases outcome <;> simp only [settle, update_jobs hget, release, outcomeFuture]

end World

end Sunpack.AsyncWork
