import Sunpack.AsyncWork.Queues

/-!
# Slots, queues and settlements in every run

The invariant of the broker, kept by every section of the event loop, every statement of `_dispatch`
between which a thread may act, and every step of a thread.
-/

namespace Sunpack.AsyncWork

open Lib RequestOrder

variable {α ε : Type} {lower : Text → Text} {w : World α ε} {hand : Nat}

/-- The invariant; `hand` slots are in the hands of the section that runs. -/
structure Inv (lower : Text → Text) (hand : Nat) (w : World α ε) : Prop where
  jobs : w.JobsOk
  balanced : w.Balanced hand
  queued : Queued lower w.queues w.requestOrder w.jobs
  pending : w.pendingJobs = w.placed .queued
  active : w.active = w.placed .active
  active_le : w.active ≤ w.peak
  capacity_le : w.threadCapacity ≤ w.peak
  calm : w.crashed = false

namespace Inv

theorem sequence_eq (h : Inv lower hand w) (s : Nat) (j : Job α ε) (hget : w.jobs.get? s = some j) :
    j.item.sequence = s :=
  (h.jobs.ok s j hget).2.sequence_eq

/-- Slots move between the semaphore, the calls and the section. -/
theorem slots (h : Inv lower hand w) (slots : Semaphore Nat) (calls : Dict Nat Admitting)
    {hand' : Nat}
    (htotal : slots.total + calls.count (fun _ a => a.admission = .acquired) + hand' =
      w.pendingSlots.total + w.acquired + hand) :
    Inv lower hand' { w with pendingSlots := slots, calls := calls } where
  jobs := ⟨h.jobs.known, h.jobs.ok⟩
  balanced := by
    have hbalanced := h.balanced
    simp only [World.Balanced, World.acquired, World.placed] at hbalanced htotal ⊢
    omega
  queued := h.queued
  pending := h.pending
  active := h.active
  active_le := h.active_le
  capacity_le := h.capacity_le
  calm := h.calm

/-- One job changes at its place, and the event loop goes on. -/
theorem touch (h : Inv lower hand w) {sequence : Nat} {j j' : Job α ε} {loop : Loop ε}
    (hget : w.jobs.get? sequence = some j) (hitem : j'.item = j.item) (hplace : j'.place = j.place)
    (hok : JobOk loop sequence j')
    (hother : ∀ s ≠ sequence, loop = w.loop ∨ ¬ w.loop.At s ∧ ¬ loop.At s) :
    Inv lower hand { w with jobs := w.jobs.set sequence j', loop := loop } := by
  have hplaced (p : Place) :
      (w.jobs.set sequence j').count (fun _ j => j.place = p) = w.placed p := by
    have hcount := World.placed_set w hget j' p
    rw [hplace] at hcount
    omega
  refine ⟨?_, ?_, ?_, ?_, ?_, h.active_le, h.capacity_le, h.calm⟩
  · exact h.jobs.set rfl (Nat.le_refl _) (h.jobs.ok _ _ hget).1 hok hother
  · have hbalanced := h.balanced
    simp only [World.Balanced, World.acquired, World.placed, hplaced] at hbalanced ⊢
    exact hbalanced
  · exact h.queued.congr hget hitem (by rw [hplace])
  · show w.pendingJobs = ((w.jobs.set sequence j').count fun _ j => j.place = .queued : Nat)
    rw [hplaced]
    exact h.pending
  · show w.active = ((w.jobs.set sequence j').count fun _ j => j.place = .active : Nat)
    rw [hplaced]
    exact h.active

/-- The event loop goes on with no item in its hands. -/
theorem turn (h : Inv lower hand w) (hloop : ∀ s, ¬ w.loop.At s) {loop : Loop ε}
    (hloop' : ∀ s, ¬ loop.At s) : Inv lower hand { w with loop := loop } where
  jobs := h.jobs.quiet rfl rfl hloop hloop'
  balanced := h.balanced
  queued := h.queued
  pending := h.pending
  active := h.active
  active_le := h.active_le
  capacity_le := h.capacity_le
  calm := h.calm

theorem release (h : Inv lower (hand + 1) w) : Inv lower hand w.release := by
  refine h.slots w.pendingSlots.release w.calls ?_
  rw [Semaphore.total_release]
  simp only [World.acquired]
  omega

theorem cancelToken (h : Inv lower hand w) (token : Token) : Inv lower hand (w.cancelToken token) where
  jobs := ⟨h.jobs.known, h.jobs.ok⟩
  balanced := h.balanced
  queued := h.queued
  pending := h.pending
  active := h.active
  active_le := h.active_le
  capacity_le := h.capacity_le
  calm := h.calm

/-! ## Admission -/

theorem count_calls_new {calls : Dict Nat Admitting} {id : Nat} (h : calls.get? id = none)
    (a : Admitting) :
    (calls.set id a).count (fun _ a => a.admission = .acquired) =
      calls.count (fun _ a => a.admission = .acquired) +
        if a.admission = .acquired then 1 else 0 := by
  have hcount := Dict.count_set calls (fun _ a => decide (a.admission = .acquired)) id a
  rw [Dict.holds, h] at hcount
  simpa [Bool.toNat, Bool.cond_decide] using hcount

theorem count_calls {calls : Dict Nat Admitting} {id : Nat} {a : Admitting}
    (h : calls.get? id = some a) (a' : Admitting) :
    (calls.set id a').count (fun _ a => a.admission = .acquired) +
        (if a.admission = .acquired then 1 else 0) =
      calls.count (fun _ a => a.admission = .acquired) +
        if a'.admission = .acquired then 1 else 0 := by
  have hcount := Dict.count_set calls (fun _ a => decide (a.admission = .acquired)) id a'
  rw [Dict.holds, h] at hcount
  simpa [Bool.toNat, Bool.cond_decide] using hcount

theorem count_calls_erase {calls : Dict Nat Admitting} {id : Nat} {a : Admitting}
    (h : calls.get? id = some a) :
    (calls.erase id).count (fun _ a => a.admission = .acquired) +
        (if a.admission = .acquired then 1 else 0) =
      calls.count (fun _ a => a.admission = .acquired) := by
  have hcount := Dict.count_erase calls (fun _ a => decide (a.admission = .acquired)) id
  rw [Dict.holds, h] at hcount
  simpa [Bool.toNat, Bool.cond_decide] using hcount

theorem requestQueue (h : Inv lower hand w) (key : Text) (origin : Origin) :
    ∃ order queue, w.requestQueue key origin = some (order, queue) ∧
      queue.jobs = Queued.jobsOf w.queues key ∧
      (∀ k ≠ key, order.listing k = w.requestOrder.listing k) ∧
      Listed (order.listing key) queue.origin := by
  unfold World.requestQueue Queued.jobsOf
  cases hq : w.queues.get? key with
  | none =>
    refine ⟨_, _, rfl, rfl, fun k hk => ?_, listed_append (h.queued.unlisted key hq) origin⟩
    rw [listing_append, if_neg hk]
  | some q =>
    have hlisted := h.queued.listed key q hq
    dsimp only
    split_ifs with hpromote
    · simp only [Bool.and_eq_true, decide_eq_true_eq] at hpromote
      rw [hpromote.2] at hlisted
      obtain ⟨order, horder, hkey, hother⟩ := promote_spec hlisted
      exact ⟨order, { q with origin := .foreground }, by rw [horder]; rfl, rfl, hother, hkey⟩
    · exact ⟨_, _, rfl, rfl, fun _ _ => rfl, hlisted⟩

theorem enqueue (h : Inv lower 1 w) (hloop : ∀ s, ¬ w.loop.At s) (c : Call) :
    Inv lower 0 (w.enqueue lower c) := by
  obtain ⟨order, queue, hqueue, hjobs, horder, hkey⟩ :=
    h.requestQueue c.requestKey (c.effectiveOrigin lower)
  have hnew : w.jobs.get? (w.sequence + 1) = none := by
    rw [Option.eq_none_iff_forall_ne_some]
    intro j hj
    have := (h.jobs.ok _ j hj).1
    omega
  have hcount (p : Place) : (w.jobs.set (w.sequence + 1) { item := c.item (w.sequence + 1) }).count
      (fun _ j => j.place = p) = w.placed p + if Place.queued = p then 1 else 0 := by
    have hset := Dict.count_set w.jobs (fun _ j => decide (j.place = p)) (w.sequence + 1)
      { item := c.item (w.sequence + 1) }
    rw [Dict.holds, hnew] at hset
    simpa [Bool.toNat, World.placed, Bool.cond_decide] using hset
  unfold World.enqueue
  rw [hqueue]
  refine ⟨?_, ?_, ?_, ?_, ?_, h.active_le, h.capacity_le, h.calm⟩
  · refine h.jobs.set rfl (Nat.le_succ _) (Nat.le_refl _) ?_ fun s _ => .inr ⟨hloop s, id⟩
    exact {
      sequence_eq := rfl
      unsettled := fun _ => ⟨rfl, rfl⟩
      settled := fun hd => absurd hd (by simp)
      queued := fun _ => ⟨rfl, rfl, rfl⟩
      active := fun ha => absurd ha (by simp)
      working := fun hw => absurd rfl hw
      starts_le := Nat.zero_le _
      starts_eq := fun _ => rfl
      here := fun hat => absurd hat id
      submitting := fun heq => absurd heq (by simp) }
  · have hbalanced := h.balanced
    simp only [World.Balanced, World.acquired, World.placed, hcount, reduceCtorEq, if_true,
      if_false] at hbalanced ⊢
    omega
  · exact h.queued.enqueue hjobs horder hkey (j := { item := c.item (w.sequence + 1) }) rfl hnew rfl
  · show w.pendingJobs + 1 = ((w.jobs.set (w.sequence + 1) _).count _ : Nat)
    rw [hcount, h.pending]
    simp
  · show w.active = ((w.jobs.set (w.sequence + 1) _).count _ : Nat)
    rw [hcount, h.active]
    simp

theorem enter (h : Inv lower 1 w) (hloop : ∀ s, ¬ w.loop.At s) (c : Call) :
    Inv lower 0 (w.enter lower c) := by
  unfold World.enter
  split_ifs
  · exact h.release
  · exact h.enqueue hloop c

theorem run (h : Inv lower 0 w) (hloop : ∀ s, ¬ w.loop.At s) {id : Nat}
    (hid : w.calls.get? id = none) (c : Call) : Inv lower 0 (w.run lower id c) := by
  unfold World.run
  split_ifs with hclosed hlocked
  · exact h
  · refine h.slots w.pendingSlots _ ?_
    rw [count_calls_new hid]
    simp [World.acquired]
  · have hslot := Semaphore.total_acquire (Bool.eq_false_iff.2 hlocked)
    refine Inv.enter (h.slots (w.pendingSlots.acquire) w.calls ?_) hloop c
    simp only [World.acquired]
    omega

theorem stepAdmission (h : Inv lower 0 w) {id : Nat} {w' : World α ε}
    (hstep : w.stepAdmission id = some w') : Inv lower 0 w' := by
  obtain ⟨a, ha, hstep⟩ := Option.bind_eq_some_iff.1 hstep
  have hcalls (admission : Admission) := count_calls ha { a with admission := admission }
  simp only at hcalls
  split at hstep
  · rename_i hcreated
    obtain rfl := Option.some.inj hstep
    refine h.slots w.pendingSlots _ ?_
    have hset := hcalls .aborted
    simp only [hcreated, reduceCtorEq, if_false] at hset
    simp only [World.acquired]
    omega
  · rename_i hcreated
    split_ifs at hstep with hlocked
    · obtain rfl := Option.some.inj hstep
      refine h.slots (w.pendingSlots.enqueue id) _ ?_
      have hset := hcalls (.blocked false)
      simp only [hcreated, reduceCtorEq, if_false] at hset
      simp only [World.acquired, Semaphore.total_enqueue]
      omega
    · obtain rfl := Option.some.inj hstep
      have hslot := Semaphore.total_acquire (Bool.eq_false_iff.2 hlocked)
      refine h.slots w.pendingSlots.acquire _ ?_
      have hset := hcalls .acquired
      simp only [hcreated, reduceCtorEq, if_false, if_true] at hset
      simp only [World.acquired]
      omega
  · rename_i cancelled hblocked
    split at hstep
    · rename_i hgranted
      split_ifs at hstep with hcancelled
      · obtain rfl := Option.some.inj hstep
        refine h.slots (w.pendingSlots.revoke id) _ ?_
        have hset := hcalls .aborted
        simp only [hblocked, reduceCtorEq, if_false] at hset
        rw [Semaphore.total_revoke hgranted]
        simp only [World.acquired]
        omega
      · obtain rfl := Option.some.inj hstep
        refine h.slots (w.pendingSlots.accept id) _ ?_
        have hset := hcalls .acquired
        have hslot := Semaphore.total_accept hgranted
        simp only [hblocked, reduceCtorEq, if_false, if_true] at hset
        simp only [World.acquired]
        omega
    · rename_i hgone
      obtain rfl := Option.some.inj hstep
      refine h.slots (w.pendingSlots.leave id) _ ?_
      have hset := hcalls .aborted
      have hslot := Semaphore.total_leave hgone
      simp only [hblocked, reduceCtorEq, if_false] at hset hslot
      simp only [World.acquired]
      omega
    · exact absurd hstep (by simp)
  · exact absurd hstep (by simp)

theorem cancelAdmission (h : Inv lower 0 w) {id : Nat} {a : Admitting}
    (ha : w.calls.get? id = some a) (cancelled : Bool) :
    Inv lower 0 (w.cancelAdmission id { a with cancelled := cancelled }) := by
  have hcalls (admission : Admission) :=
    count_calls ha { a with cancelled := cancelled, admission := admission }
  simp only at hcalls
  unfold World.cancelAdmission
  dsimp only
  split
  · rename_i hcreated
    refine h.slots w.pendingSlots _ ?_
    have hset := hcalls (.created true)
    simp only [hcreated, reduceCtorEq, if_false] at hset
    simp only [World.acquired]
    omega
  · rename_i hblocked
    refine h.slots (w.pendingSlots.cancel id) _ ?_
    have hset := hcalls (.blocked true)
    simp only [hblocked, reduceCtorEq, if_false] at hset
    simp only [World.acquired, Semaphore.total_cancel]
    omega
  · refine h.slots w.pendingSlots _ ?_
    have hset := hcalls a.admission
    simp only [World.acquired]
    omega

theorem resume (h : Inv lower 0 w) (hloop : ∀ s, ¬ w.loop.At s) {id : Nat} {w' : World α ε}
    (hstep : w.resume lower id = some w') : Inv lower 0 w' := by
  obtain ⟨a, ha, hstep⟩ := Option.bind_eq_some_iff.1 hstep
  have hcalls := count_calls_erase ha
  dsimp only at hstep
  split at hstep
  · rename_i hacquired
    rw [if_pos hacquired] at hcalls
    have hhand : Inv lower 1 { w with calls := w.calls.erase id } := by
      refine h.slots w.pendingSlots _ ?_
      simp only [World.acquired]
      omega
    split_ifs at hstep with hcancelled
    · exact Option.some.inj hstep ▸ hhand.release
    · exact Option.some.inj hstep ▸ hhand.enter hloop a.call
  · rename_i haborted
    rw [haborted] at hcalls
    obtain rfl := Option.some.inj hstep
    refine h.slots w.pendingSlots _ ?_
    simp only [reduceCtorEq, if_false] at hcalls
    simp only [World.acquired]
    omega
  · exact absurd hstep (by simp)

/-! ## Threads and submissions -/

theorem pickUp (h : Inv lower 0 w) {sequence : Nat} {w' : World α ε}
    (hstep : w.pickUp sequence = some w') : Inv lower 0 w' := by
  obtain ⟨j, hj, hstep⟩ := Option.bind_eq_some_iff.1 hstep
  obtain ⟨_, hok⟩ := h.jobs.ok _ _ hj
  dsimp only at hstep
  split_ifs at hstep with hcalled hclaimed
  · obtain rfl := Option.some.inj hstep
    refine @touch _ _ _ _ _ h _ _ _ w.loop hj rfl rfl ?_ fun s _ => .inl rfl
    exact {
      sequence_eq := hok.sequence_eq
      unsettled := hok.unsettled
      settled := fun hd => ⟨(hok.settled hd).1, (hok.settled hd).2.1, (hok.settled hd).2.2.1,
        fun hc => absurd hc (by simp)⟩
      queued := fun hq => ⟨(hok.queued hq).1, rfl, (hok.queued hq).2.2⟩
      active := fun ha hw => by
        have := (hok.active ha hw).1
        rw [hclaimed] at this
        exact absurd this (by simp)
      working := hok.working
      starts_le := hok.starts_le
      starts_eq := hok.starts_eq
      here := hok.here
      submitting := fun heq => ⟨(hok.submitting heq).1, rfl, (hok.submitting heq).2.2⟩ }
  · obtain rfl := Option.some.inj hstep
    have hplace : j.place = .active := by
      cases hp : j.place with
      | queued => exact absurd hcalled (by simp [(hok.queued hp).2.1])
      | active => rfl
      | done => exact absurd ((hok.settled hp).2.2.2 hcalled) hclaimed
    refine @touch _ _ _ _ _ h _ _ _ w.loop hj rfl rfl ?_ fun s _ => .inl rfl
    have hnot : j.claimed = false := Bool.eq_false_iff.2 hclaimed
    exact {
      sequence_eq := hok.sequence_eq
      unsettled := hok.unsettled
      settled := fun hd => absurd (hplace.symm.trans hd) (by simp)
      queued := fun hq => absurd (hplace.symm.trans hq) (by simp)
      active := fun _ hw => absurd hw (by simp)
      working := fun _ => rfl
      starts_le := hok.starts_le
      starts_eq := fun _ => hok.starts_eq (.inl hnot)
      here := hok.here
      submitting := fun heq => absurd hcalled (by simp [(hok.submitting heq).2.1]) }

/-- The thread of an item goes on with the item at its place. -/
theorem working (h : Inv lower 0 w) {sequence : Nat} {j : Job α ε}
    (hget : w.jobs.get? sequence = some j) (hworker : j.worker ≠ .none) {worker : Worker α ε}
    (hnone : worker ≠ .none) {starts : Nat} (hle : starts ≤ 1)
    (hstarts : worker = .claimed → starts = 0) :
    Inv lower 0 { w with
      jobs := w.jobs.set sequence { j with worker := worker, starts := starts } } := by
  obtain ⟨_, hok⟩ := h.jobs.ok _ _ hget
  have hclaimed := hok.working hworker
  refine @touch _ _ _ _ _ h _ _ _ w.loop hget rfl rfl ?_ fun s _ => .inl rfl
  exact {
    sequence_eq := hok.sequence_eq
    unsettled := hok.unsettled
    settled := fun hd => absurd (hok.settled hd).2.2.1 hworker
    queued := fun hq => absurd (hok.queued hq).2.2 hworker
    active := fun _ hw => absurd hw hnone
    working := fun _ => hclaimed
    starts_le := hle
    starts_eq := fun hs => hstarts (hs.resolve_left (by simp [hclaimed]))
    here := hok.here
    submitting := fun heq => absurd (hok.submitting heq).2.2 hworker }

theorem work (h : Inv lower 0 w) {sequence : Nat} {outcome : Option (Except ε α)} {w' : World α ε}
    (hstep : w.work sequence outcome = some w') : Inv lower 0 w' := by
  obtain ⟨j, hj, hstep⟩ := Option.bind_eq_some_iff.1 hstep
  obtain ⟨_, hok⟩ := h.jobs.ok _ _ hj
  split at hstep
  · rename_i hworker _
    obtain rfl := Option.some.inj hstep
    have hzero := hok.starts_eq (.inr hworker)
    exact h.working hj (by simp [hworker]) (by simp) (by omega) (by simp)
  · rename_i hworker _
    obtain rfl := Option.some.inj hstep
    exact h.working hj (by simp [hworker]) (by simp) hok.starts_le (by simp)
  · rename_i hworker _
    obtain rfl := Option.some.inj hstep
    exact h.working hj (by simp [hworker]) (by simp) hok.starts_le (by simp)
  · exact absurd hstep (by simp)

theorem submit (h : Inv lower 0 w) {sequence : Nat} (hloop : w.loop = .submitting sequence)
    (submission : World.Submission ε) : Inv lower 0 (w.submit sequence submission) := by
  have hat : w.loop.At sequence := by
    rw [hloop]
    rfl
  obtain ⟨j, hj⟩ := Option.ne_none_iff_exists'.1 (h.jobs.known sequence hat)
  obtain ⟨_, hok⟩ := h.jobs.ok _ _ hj
  have hplace := hok.here hat
  obtain ⟨hclaimed, hcalled, hworker⟩ := hok.submitting hloop
  have hother (s : Nat) (hs : s ≠ sequence) : ¬ w.loop.At s := by
    rw [hloop]
    exact fun heq => hs heq
  cases submission with
  | accepted =>
    rw [World.submit, World.update_jobs hj]
    refine h.touch hj rfl rfl ?_ fun s hs => .inr ⟨hother s hs, id⟩
    exact {
      sequence_eq := hok.sequence_eq
      unsettled := hok.unsettled
      settled := fun hd => absurd (hplace.symm.trans hd) (by simp)
      queued := fun hq => absurd (hplace.symm.trans hq) (by simp)
      active := fun _ _ => ⟨hclaimed, .inr rfl⟩
      working := hok.working
      starts_le := hok.starts_le
      starts_eq := hok.starts_eq
      here := fun hat => absurd hat id
      submitting := fun heq => absurd heq (by simp) }
  | raised queued error =>
    rw [World.submit, World.update_jobs hj]
    refine h.touch hj rfl rfl ?_ fun s hs => .inr ⟨hother s hs, fun heq => hs heq⟩
    exact {
      sequence_eq := hok.sequence_eq
      unsettled := hok.unsettled
      settled := fun hd => absurd (hplace.symm.trans hd) (by simp)
      queued := fun hq => absurd (hplace.symm.trans hq) (by simp)
      active := fun _ _ => ⟨hclaimed, .inl rfl⟩
      working := hok.working
      starts_le := hok.starts_le
      starts_eq := hok.starts_eq
      here := fun _ => hplace
      submitting := fun heq => absurd heq (by simp) }

/-- An active item is settled, and the event loop goes on to dispatch. -/
theorem settled (h : Inv lower 0 w) {sequence : Nat} {j : Job α ε}
    (hget : w.jobs.get? sequence = some j) (hplace : j.place = .active)
    (hloop : ∀ s ≠ sequence, ¬ w.loop.At s) {future : Future α ε} (hfuture : future ≠ .pending) :
    Inv lower 0 { w with
      jobs := w.jobs.set sequence ({ j with claimed := true }.finish future)
      pendingSlots := w.pendingSlots.release
      active := w.active - 1
      loop := .dispatching } := by
  obtain ⟨hle, hok⟩ := h.jobs.ok _ _ hget
  obtain ⟨j', hj', hitem, hdone, hok'⟩ : ∃ j', { j with claimed := true }.finish future = j' ∧
      j'.item = j.item ∧ j'.place = .done ∧ JobOk .dispatching sequence j' :=
    ⟨_, rfl, by simp [Job.finish], rfl, hok.finish hplace id hfuture⟩
  rw [hj']
  have hqueued := World.placed_set w hget j' .queued
  have hactive := World.placed_set w hget j' .active
  have htotal := Semaphore.total_release w.pendingSlots
  have hbalanced := h.balanced
  have hpending := h.pending
  have hcount := h.active
  simp only [hplace, hdone, reduceCtorEq, if_true, if_false] at hqueued hactive
  simp only [World.Balanced, World.acquired, World.placed] at hbalanced hqueued hactive hpending hcount
  refine ⟨?_, ?_, ?_, ?_, ?_, ?_, h.capacity_le, h.calm⟩
  · exact h.jobs.set rfl (Nat.le_refl _) hle hok' fun s hs => .inr ⟨hloop s hs, id⟩
  · simp only [World.Balanced, World.acquired, World.placed]
    omega
  · exact h.queued.congr hget hitem (by simp [hplace, hdone])
  · simp only [World.placed]
    omega
  · simp only [World.placed]
    omega
  · show w.active - 1 ≤ (w.peak : Int)
    have := h.active_le
    omega

theorem complete (h : Inv lower 0 w) (hloop : ∀ s, ¬ w.loop.At s) {sequence : Nat}
    {w' : World α ε} (hstep : w.complete sequence = some w') : Inv lower 0 w' := by
  obtain ⟨j, hj, hstep⟩ := Option.bind_eq_some_iff.1 hstep
  obtain ⟨_, hok⟩ := h.jobs.ok _ _ hj
  split at hstep
  · rename_i outcome hworker
    have hne : j.worker ≠ .none := by simp [hworker]
    have hplace : j.place = .active := by
      cases hp : j.place with
      | queued => exact absurd (hok.queued hp).2.2 hne
      | active => rfl
      | done => exact absurd (hok.settled hp).2.2.1 hne
    have hsettled := h.settled hj hplace (fun s _ => hloop s) (World.outcomeFuture_ne outcome)
    have hclaimed : { j with claimed := true } = j := by
      have := hok.working hne
      cases j
      simp_all
    rw [World.settle_eq hj] at hstep
    rw [hclaimed] at hsettled
    exact Option.some.inj hstep ▸ hsettled
  · exact absurd hstep (by simp)

theorem reject (h : Inv lower 0 w) {sequence : Nat} {error : ε}
    (hloop : w.loop = .rejected sequence error) : Inv lower 0 (w.reject sequence error) := by
  have hat : w.loop.At sequence := by
    rw [hloop]
    rfl
  obtain ⟨j, hj⟩ := Option.ne_none_iff_exists'.1 (h.jobs.known sequence hat)
  obtain ⟨_, hok⟩ := h.jobs.ok _ _ hj
  have hplace := hok.here hat
  have hother (s : Nat) (hs : s ≠ sequence) : ¬ w.loop.At s := by
    rw [hloop]
    exact fun heq => hs heq
  unfold World.reject
  rw [hj, Option.any_some]
  split_ifs with hclaimed
  · -- an executor thread has claimed the item and will complete it
    refine ⟨⟨fun s hs => absurd hs id, fun s js hs => ?_⟩, h.balanced, h.queued, h.pending, h.active,
      h.active_le, h.capacity_le, h.calm⟩
    obtain ⟨hle, hoks⟩ := h.jobs.ok s js hs
    refine ⟨hle, ?_⟩
    by_cases heq : s = sequence
    · rw [heq, hj] at hs
      obtain rfl := Option.some.inj hs
      exact {
        sequence_eq := hoks.sequence_eq
        unsettled := hoks.unsettled
        settled := hoks.settled
        queued := hoks.queued
        active := fun ha hw => absurd hclaimed (by simp [(hoks.active ha hw).1])
        working := hoks.working
        starts_le := hoks.starts_le
        starts_eq := hoks.starts_eq
        here := fun hat => absurd hat id
        submitting := fun heq => absurd heq (by simp) }
    · exact hoks.quiet (hother s heq) id
  · have hsettled := h.settled hj hplace hother (World.outcomeFuture_ne (.error error))
    have hupdated : w.update sequence (fun j => { j with claimed := true }) =
        { w with jobs := w.jobs.set sequence { j with claimed := true } } := World.update_jobs hj _
    rw [hupdated, World.settle_eq (Dict.get?_set_self _ _ _)]
    simp only [Dict.set_set]
    exact hsettled

/-! ## Cancelling, dispatching and closing -/

/-- What `_cancel_pending` and `_dispatch` do with an item that they take out of its queue, before
they look at the rest of the queue. -/
theorem cancelled (h : Inv lower 0 w) {item : WorkItem} {j : Job α ε}
    (hget : w.jobs.get? item.sequence = some j)
    (hplace : j.place = .queued) {queues : Dict Text RequestQueue} {order : RequestOrder}
    (hqueued : ∀ j' : Job α ε, j'.place ≠ .queued →
      Queued lower queues order (w.jobs.set item.sequence j')) :
    Inv lower 0 (World.cancelItem { w with
      pendingJobs := w.pendingJobs - 1, requestOrder := order, queues := queues } item) := by
  obtain ⟨heq, hjobs, hbalanced, hpending, hactive⟩ := @World.cancelItem_spec α ε j { w with
    pendingJobs := w.pendingJobs - 1, requestOrder := order, queues := queues } 0 item
    ⟨h.jobs.known, h.jobs.ok⟩ h.balanced hget hplace
  have hold := h.pending
  have holdActive := h.active
  have hjobsLeft := congrArg (fun w : World α ε => w.pendingJobs) heq
  have hactiveLeft := congrArg (fun w : World α ε => w.active) heq
  simp only [World.placed] at hpending hactive hold holdActive hjobsLeft hactiveLeft
  refine ⟨hjobs, hbalanced, ?_, ?_, ?_, ?_, ?_, ?_⟩
  · rw [heq]
    exact hqueued _ (by simp [Job.cancel])
  · rw [hjobsLeft]
    simp only [World.placed]
    omega
  · rw [hactiveLeft]
    simp only [World.placed]
    omega
  · rw [heq]
    exact h.active_le
  · rw [heq]
    exact h.capacity_le
  · rw [heq]
    exact h.calm

theorem cancelPending (h : Inv lower 0 w) {sequence : Nat} {j : Job α ε}
    (hget : w.jobs.get? sequence = some j) : Inv lower 0 (w.cancelPending lower j.item) := by
  have hsequence := h.sequence_eq sequence j hget
  unfold World.cancelPending
  cases hq : w.queues.get? j.item.context.requestId with
  | none => exact h
  | some q =>
    obtain ⟨hvalid, _, _⟩ := h.queued.valid _ q hq
    have hunique (x : WorkItem) (hx : x ∈ q.jobs.items) (heq : x.sequence = j.item.sequence) :
        x = j.item := by
      obtain ⟨_, jx, hjx, hjitem, _⟩ := h.queued.mem _ q x hq hx
      rw [heq, hsequence, hget] at hjx
      obtain rfl := Option.some.inj hjx
      exact hjitem.symm
    rcases hvalid.remove hunique with ⟨hin, rest, hremove, hrest, hperm⟩ | ⟨_, hremove⟩
    · obtain ⟨_, j', hj', hjitem, hplace⟩ := h.queued.mem _ q j.item hq hin
      obtain rfl : j = j' := by
        rw [hsequence, hget] at hj'
        exact Option.some.inj hj'
      simp only [hremove]
      split_ifs with hsize
      · have hdiscard := listing_discard (h.queued.proper j.item.context.requestId)
        refine h.cancelled hj' hplace fun j' hj' => ?_
        refine h.queued.take h.sequence_eq hq hrest hperm hj' (fun k => ?_) hdiscard.2 ?_
        · rw [Dict.get?_erase, if_pos hsize]
        · rw [if_pos hsize]
          exact hdiscard.1
      · refine @cancelled α ε lower w h j.item j hj' hplace _ w.requestOrder fun j' hj' => ?_
        refine h.queued.take h.sequence_eq hq hrest hperm hj' (fun k => ?_) (fun _ _ => rfl) ?_
        · rw [Dict.get?_set, if_neg hsize]
        · rw [if_neg hsize]
          exact h.queued.listed _ q hq
    · simp only [hremove]
      exact h

/-- The only queued item is taken: no other request has a queue. -/
theorem no_other_queue (h : Inv lower hand w) (hone : w.pendingJobs - 1 = 0) {key : Text}
    {q : RequestQueue} {item : WorkItem} (hq : w.queues.get? key = some q)
    (hin : item ∈ q.jobs.items) {k : Text} (hk : k ≠ key) : w.queues.get? k = none := by
  rw [Option.eq_none_iff_forall_ne_some]
  intro q' hq'
  obtain ⟨x, hx⟩ := List.exists_mem_of_ne_nil _ (h.queued.valid k q' hq').2.1
  have hlength := h.queued.length_allItems h.sequence_eq
  have hpending := h.pending
  simp only [World.placed, ← hlength] at hpending
  obtain ⟨y, hy⟩ : ∃ y, Queued.allItems w.queues = [y] := List.length_eq_one_iff.1 (by omega)
  have hitem := Queued.mem_allItems.2 ⟨key, q, hq, hin⟩
  have hother := Queued.mem_allItems.2 ⟨k, q', hq', hx⟩
  rw [hy, List.mem_singleton] at hitem hother
  have h1 := (h.queued.mem key q item hq hin).1
  have h2 := (h.queued.mem k q' x hq' hx).1
  rw [hitem] at h1
  rw [hother] at h2
  exact hk (h2.symm.trans h1)

/-- A queued item becomes active, and the event loop is about to submit it. -/
theorem activated (h : Inv lower 0 w) (hloop : ∀ s, ¬ w.loop.At s) {item : WorkItem}
    {j : Job α ε} (hget : w.jobs.get? item.sequence = some j) (hplace : j.place = .queued)
    (hcapacity : w.active < w.threadCapacity) {queues : Dict Text RequestQueue}
    {order : RequestOrder}
    (hqueued : ∀ j' : Job α ε, j'.place ≠ .queued →
      Queued lower queues order (w.jobs.set item.sequence j')) :
    Inv lower 0 { w with
      pendingJobs := w.pendingJobs - 1
      requestOrder := order
      queues := queues
      jobs := w.jobs.set item.sequence { j with place := .active }
      active := w.active + 1
      loop := .submitting item.sequence } := by
  obtain ⟨hle, hok⟩ := h.jobs.ok _ _ hget
  obtain ⟨hclaimed, hcalled, hworker⟩ := hok.queued hplace
  have hqueuedCount := World.placed_set w hget { j with place := .active } .queued
  have hactiveCount := World.placed_set w hget { j with place := .active } .active
  have hbalanced := h.balanced
  have hpending := h.pending
  have hactive := h.active
  have hcapacity' := h.capacity_le
  simp only [hplace, reduceCtorEq, if_true, if_false] at hqueuedCount hactiveCount
  simp only [World.Balanced, World.acquired, World.placed] at hbalanced hqueuedCount hactiveCount
  simp only [World.placed] at hpending hactive
  refine ⟨?_, ?_, hqueued _ (by simp), ?_, ?_, ?_, h.capacity_le, h.calm⟩
  · refine h.jobs.set rfl (Nat.le_refl _) hle ?_ fun s hs => .inr ⟨hloop s, fun heq => hs heq⟩
    exact {
      sequence_eq := hok.sequence_eq
      unsettled := fun _ => hok.unsettled (by rw [hplace]; decide)
      settled := fun hd => absurd hd (by simp)
      queued := fun hq => absurd hq (by simp)
      active := fun _ _ => ⟨hclaimed, .inl rfl⟩
      working := hok.working
      starts_le := hok.starts_le
      starts_eq := hok.starts_eq
      here := fun _ => rfl
      submitting := fun _ => ⟨hclaimed, hcalled, hworker⟩ }
  · simp only [World.Balanced, World.acquired, World.placed]
    omega
  · simp only [World.placed]
    omega
  · simp only [World.placed]
    omega
  · show w.active + 1 ≤ (w.peak : Int)
    omega

theorem dispatch (h : Inv lower 0 w) (hloop : w.loop = .dispatching) : Inv lower 0 w.dispatch := by
  have hnone (s : Nat) : ¬ w.loop.At s := by
    rw [hloop]
    exact id
  unfold World.dispatch
  split_ifs with hgo
  · simp only [Bool.and_eq_true, decide_eq_true_eq] at hgo
    obtain ⟨hcapacity, hnonempty⟩ := hgo
    obtain ⟨key, order, hpop, htakes⟩ := popleft_spec hnonempty h.queued.proper
    obtain ⟨q, hq⟩ : ∃ q, w.queues.get? key = some q :=
      Option.ne_none_iff_exists'.1 fun hnil => htakes.stood (h.queued.unlisted key hnil)
    obtain ⟨hvalid, hitems, _⟩ := h.queued.valid key q hq
    have hsize : q.jobs.size ≠ 0 := by
      rw [hvalid.size]
      exact fun hzero => hitems (List.eq_nil_of_length_eq_zero hzero)
    obtain ⟨item, rest, htake, hrest, hperm⟩ := hvalid.takePrioritized hsize w.sequence
    have hin : item ∈ q.jobs.items := hperm.mem_iff.2 List.mem_cons_self
    obtain ⟨_, j, hget, hjitem, hplace⟩ := h.queued.mem key q item hq hin
    have hother (k : Text) (hk : k ≠ key) : order.listing k = w.requestOrder.listing k :=
      htakes.other k hk
    have hfinish (queues : Dict Text RequestQueue) (order : RequestOrder)
        (hqueued : ∀ j' : Job α ε, j'.place ≠ .queued →
          Queued lower queues order (w.jobs.set item.sequence j')) :
        let w' : World α ε := { w with
          pendingJobs := w.pendingJobs - 1, requestOrder := order, queues := queues }
        Inv lower 0
          (if (w.jobs.get? item.sequence).any Job.isCancelled || w.cancelled.contains item.token then
            w'.cancelItem item
          else
            { w'.update item.sequence fun j => { j with place := .active } with
              active := w.active + 1
              loop := .submitting item.sequence }) := by
      intro w'
      split_ifs
      · exact h.cancelled hget hplace hqueued
      · have hupdate : w'.update item.sequence (fun j => { j with place := .active }) =
            { w' with jobs := w.jobs.set item.sequence { j with place := .active } } :=
          World.update_jobs (show w'.jobs.get? item.sequence = some j from hget) _
        rw [hupdate]
        exact h.activated hnone hget hplace hcapacity hqueued
    rw [hpop]
    simp only [hq, hsize, if_false, htake]
    by_cases hrestSize : rest.size = 0
    · simp only [hrestSize, ne_eq, not_true_eq_false, if_false]
      refine hfinish _ _ fun j' hj' => ?_
      refine h.queued.take h.sequence_eq hq hrest hperm hj' (fun k => ?_) hother ?_
      · rw [if_pos hrestSize]
        by_cases hk : k = key
        · rw [if_pos hk, hk]
          split_ifs
          · rfl
          · exact Dict.get?_erase_self _ _
        · rw [if_neg hk]
          split_ifs with hone
          · exact (h.no_other_queue hone hq hin hk).symm
          · exact Dict.get?_erase_of_ne _ hk
      · rw [if_pos hrestSize]
        exact htakes.gone
    · simp only [hrestSize, ne_eq, not_false_eq_true, if_true]
      refine hfinish _ _ fun j' hj' => ?_
      refine h.queued.take h.sequence_eq hq hrest hperm hj' (fun k => ?_) (fun k hk => ?_) ?_
      · rw [Dict.get?_set, if_neg hrestSize]
      · rw [listing_append, if_neg hk, hother k hk]
      · rw [if_neg hrestSize]
        exact listed_append htakes.gone q.origin
  · exact h.turn hnone fun s => id

end Inv

/-- In the middle of a forced close: the queued jobs are those of the items that are left. -/
structure Draining (w : World α ε) (left : List WorkItem) : Prop where
  jobs : w.JobsOk
  balanced : w.Balanced 0
  active : w.active = w.placed .active
  active_le : w.active ≤ w.peak
  capacity_le : w.threadCapacity ≤ w.peak
  calm : w.crashed = false
  nodup : (left.map (·.sequence)).Nodup
  mem : ∀ item ∈ left, ∃ j, w.jobs.get? item.sequence = some j ∧ j.place = .queued
  all : ∀ s j, w.jobs.get? s = some j → j.place = .queued → ∃ item ∈ left, item.sequence = s

namespace Draining

variable {left : List WorkItem} {item : WorkItem}

theorem perm (h : Draining w left) {left' : List WorkItem} (hperm : left.Perm left') :
    Draining w left' where
  jobs := h.jobs
  balanced := h.balanced
  active := h.active
  active_le := h.active_le
  capacity_le := h.capacity_le
  calm := h.calm
  nodup := (hperm.map _).nodup_iff.1 h.nodup
  mem item hitem := h.mem item (hperm.mem_iff.2 hitem)
  all s j hget hplace := by
    obtain ⟨item, hitem, hs⟩ := h.all s j hget hplace
    exact ⟨item, hperm.mem_iff.1 hitem, hs⟩

theorem cancelItem (h : Draining w (item :: left)) (token : Token) :
    Draining ((w.cancelToken token).cancelItem item) left := by
  obtain ⟨j, hget, hplace⟩ := h.mem item List.mem_cons_self
  obtain ⟨heq, hjobs, hbalanced, _, hactive⟩ := @World.cancelItem_spec α ε j (w.cancelToken token) 0
    item ⟨h.jobs.known, h.jobs.ok⟩ h.balanced hget hplace
  have hnodup : item.sequence ∉ left.map (·.sequence) ∧ (left.map (·.sequence)).Nodup :=
    List.nodup_cons.1 h.nodup
  have hgets (s : Nat) : ((w.cancelToken token).cancelItem item).jobs.get? s =
      if s = item.sequence then some j.cancel else w.jobs.get? s := by
    rw [heq]
    exact Dict.get?_set _ _ _ _
  refine ⟨hjobs, hbalanced, ?_, ?_, ?_, ?_, hnodup.2, fun x hx => ?_, fun s js hs hqueued => ?_⟩
  · have hleft := congrArg (fun w : World α ε => w.active) heq
    rw [hleft, hactive]
    exact h.active
  · rw [heq]
    exact h.active_le
  · rw [heq]
    exact h.capacity_le
  · rw [heq]
    exact h.calm
  · rw [hgets, if_neg fun hs => hnodup.1 (List.mem_map.2 ⟨x, hx, hs⟩)]
    exact h.mem x (List.mem_cons_of_mem item hx)
  · rw [hgets] at hs
    split_ifs at hs with heqs
    · obtain rfl := Option.some.inj hs
      exact absurd hqueued (by simp [Job.cancel])
    · obtain ⟨x, hx, hxs⟩ := h.all s js hs hqueued
      rcases List.mem_cons.1 hx with rfl | hx
      · exact absurd hxs.symm heqs
      · exact ⟨x, hx, hxs⟩

theorem drain {n : Nat} {q : StageWorkQueue} (hq : q.Valid lower) (hn : q.size = n)
    (h : Draining w (q.items ++ left)) : Draining (World.drain n q w) left := by
  induction n generalizing q w with
  | zero =>
    have hitems : q.items = [] := List.eq_nil_of_length_eq_zero (hq.size.symm.trans hn)
    rw [hitems, List.nil_append] at h
    exact h
  | succ n ih =>
    obtain ⟨item, rest, hpop, hrest, hperm⟩ := hq.popleft (by omega)
    have hlength := hperm.length_eq
    rw [← hq.size, List.length_cons, ← hrest.size] at hlength
    rw [World.drain, hpop]
    exact ih hrest (by omega) ((h.perm (hperm.append_right left)).cancelItem item.token)

theorem drainAll {queues : List RequestQueue} (hqueues : ∀ q ∈ queues, q.jobs.Valid lower)
    (h : Draining w (queues.flatMap fun q => q.jobs.items)) :
    Draining (queues.foldl (fun w queue => World.drain queue.jobs.size queue.jobs w) w) [] := by
  induction queues generalizing w with
  | nil => exact h
  | cons q queues ih =>
    exact ih (fun q' hq' => hqueues q' (List.mem_cons_of_mem q hq'))
      (drain (hqueues q List.mem_cons_self) rfl h)

end Draining

namespace Inv

theorem draining (h : Inv lower 0 w) :
    Draining w (w.queues.values.flatMap fun q => q.jobs.items) := by
  have hitems : (w.queues.values.flatMap fun q => q.jobs.items) = Queued.allItems w.queues :=
    List.flatMap_map _ _ _
  rw [hitems]
  refine ⟨h.jobs, h.balanced, h.active, h.active_le, h.capacity_le, h.calm, h.queued.allItems_nodup,
    fun item hitem => ?_, fun s j hget hplace => ?_⟩
  · obtain ⟨key, q, hq, hin⟩ := Queued.mem_allItems.1 hitem
    obtain ⟨_, j, hj, _, hplace⟩ := h.queued.mem key q item hq hin
    exact ⟨j, hj, hplace⟩
  · obtain ⟨q, hq, hin⟩ := h.queued.held s j hget hplace
    exact ⟨j.item, Queued.mem_allItems.2 ⟨_, q, hq, hin⟩, h.sequence_eq s j hget⟩

theorem close (h : Inv lower 0 w) (graceful : Bool) : Inv lower 0 (w.close graceful) := by
  unfold World.close
  dsimp only
  split_ifs
  · exact ⟨⟨h.jobs.known, h.jobs.ok⟩, h.balanced, h.queued, h.pending, h.active, h.active_le,
      h.capacity_le, h.calm⟩
  · have hstart := h.draining
    have hclosed : Draining { w with closed := true }
        (w.queues.values.flatMap fun q => q.jobs.items) :=
      ⟨⟨hstart.jobs.known, hstart.jobs.ok⟩, hstart.balanced, hstart.active, hstart.active_le,
        hstart.capacity_le, hstart.calm, hstart.nodup, hstart.mem, hstart.all⟩
    have hvalid (q : RequestQueue) (hq : q ∈ w.queues.values) : q.jobs.Valid lower := by
      obtain ⟨e, he, rfl⟩ := List.mem_map.1 hq
      exact (h.queued.valid e.1 e.2 (Dict.mem_entries.1 he)).1
    have hdrained := Draining.drainAll hvalid hclosed
    have hnone (s : Nat) (j : Job α ε) (hget : _ = some j) : j.place ≠ .queued := fun hplace => by
      obtain ⟨x, hx, _⟩ := hdrained.all s j hget hplace
      exact absurd hx List.not_mem_nil
    refine ⟨⟨hdrained.jobs.known, hdrained.jobs.ok⟩, hdrained.balanced, Queued.empty hnone, ?_,
      hdrained.active, hdrained.active_le, hdrained.capacity_le, hdrained.calm⟩
    have hzero : World.placed _ .queued = 0 := Dict.count_eq_zero.2 fun s j hget => by
      simpa using hnone s j hget
    simp only [World.placed] at hzero ⊢
    rw [hzero]
    rfl

theorem configure (h : Inv lower 0 w) (hloop : ∀ s, ¬ w.loop.At s) (value : Int) :
    Inv lower 0 (w.configure value) := by
  have hturn := h.turn hloop (show ∀ s, ¬ (Loop.dispatching : Loop ε).At s from fun s => id)
  refine ⟨⟨hturn.jobs.known, hturn.jobs.ok⟩, hturn.balanced, hturn.queued, hturn.pending,
    hturn.active, ?_, ?_, hturn.calm⟩
  · have := h.active_le
    show w.active ≤ ((max w.peak _ : Nat) : Int)
    omega
  · exact Nat.le_max_right _ _

theorem loopStep (h : Inv lower 0 w) (hloop : w.loop = .idle) {a : Action α ε} {w' : World α ε}
    (hstep : loopStep lower w a = some w') : Inv lower 0 w' := by
  have hnone (s : Nat) : ¬ w.loop.At s := by
    rw [hloop]
    exact id
  cases a with
  | run id c =>
    simp only [AsyncWork.loopStep] at hstep
    split_ifs at hstep with hid
    exact Option.some.inj hstep ▸ h.run hnone hid c
  | stepAdmission id => exact h.stepAdmission hstep
  | cancelAdmission id =>
    obtain ⟨a, ha, hstep⟩ := Option.bind_eq_some_iff.1 hstep
    split_ifs at hstep
    exact Option.some.inj hstep ▸ h.cancelAdmission ha a.cancelled
  | cancelCall id =>
    obtain ⟨a, ha, rfl⟩ := Option.map_eq_some_iff.1 hstep
    exact h.cancelAdmission ha true
  | resume id => exact h.resume hnone hstep
  | cancelWaiter sequence =>
    obtain ⟨j, hj, rfl⟩ := Option.map_eq_some_iff.1 hstep
    exact (h.cancelToken j.item.token).cancelPending hj
  | cancelPending sequence =>
    obtain ⟨j, hj, hstep⟩ := Option.bind_eq_some_iff.1 hstep
    split_ifs at hstep
    exact Option.some.inj hstep ▸ h.cancelPending hj
  | complete sequence => exact h.complete hnone hstep
  | close graceful => exact Option.some.inj hstep ▸ h.close graceful
  | configure value => exact Option.some.inj hstep ▸ h.configure hnone value
  | _ => exact absurd hstep (by simp [AsyncWork.loopStep])

theorem step (h : Inv lower 0 w) {a : Action α ε} {w' : World α ε}
    (hstep : step lower w a = some w') : Inv lower 0 w' := by
  unfold AsyncWork.step at hstep
  split at hstep
  · exact Option.some.inj hstep ▸ h.cancelToken _
  · exact h.pickUp hstep
  · exact h.work hstep
  · split at hstep
    · rename_i hloop _ _ _
      exact h.loopStep hloop hstep
    · rename_i hloop _ _ _
      exact Option.some.inj hstep ▸ h.dispatch hloop
    · rename_i hloop _ _ _
      exact Option.some.inj hstep ▸ h.submit hloop _
    · rename_i hloop _ _ _
      exact Option.some.inj hstep ▸ h.reject hloop
    · exact absurd hstep (by simp)

end Inv

theorem inv_init (lower : Text → Text) (threadCapacity maxPendingJobs : Int) (cpus : Nat) :
    Inv lower 0 (World.init threadCapacity maxPendingJobs cpus : World α ε) where
  jobs := ⟨fun s hs => absurd hs id, fun s j hget => absurd hget (by simp [World.init])⟩
  balanced := by
    simp [World.Balanced, World.init, World.acquired, World.placed, Semaphore.total,
      Semaphore.reserved, Dict.count, Dict.empty, EmptyCollection.emptyCollection]
  queued := Queued.empty fun s j hget => absurd hget (by simp [World.init])
  pending := rfl
  active := rfl
  active_le := by
    simp [World.init]
  capacity_le := Nat.le_refl _
  calm := rfl

theorem inv_of_reachable {threadCapacity maxPendingJobs : Int} {cpus : Nat}
    (h : (machine lower threadCapacity maxPendingJobs cpus).Reachable w) : Inv lower 0 w :=
  h.invariant (inv_init lower threadCapacity maxPendingJobs cpus)
    fun s _ _ (hs : Inv lower 0 s) hstep => hs.step hstep

/-! ## What the broker promises -/

namespace World

/-- The item is queued, with the event loop, in the executor, or with the thread that claimed it. -/
def Holds (w : World α ε) (sequence : Nat) (j : Job α ε) : Prop :=
  (∃ q, w.queues.get? j.item.context.requestId = some q ∧ j.item ∈ q.jobs.items) ∨
    w.loop.At sequence ∨ (j.called = true ∧ j.claimed = false) ∨ j.worker ≠ .none

/-- No call of `run` has a slot without knowing it, and no slot is reserved for a waiter. -/
def Quiescent (w : World α ε) : Prop :=
  (∀ id a, w.calls.get? id = some a → a.admission ≠ .acquired) ∧
    ∀ waiter ∈ w.pendingSlots.waiters, waiter.2 ≠ .granted

end World

structure Safe (w : World α ε) : Prop where
  calm : w.crashed = false
  /-- An operation is begun at most once. -/
  once : ∀ s j, w.jobs.get? s = some j → j.starts ≤ 1
  /-- A future is settled once, when the broker has done with the item. -/
  settled : ∀ s j, w.jobs.get? s = some j →
    (w.Holds s j → j.settlements = 0 ∧ j.future = .pending) ∧
      (¬ w.Holds s j → j.settlements = 1 ∧ j.future ≠ .pending)
  running : ∀ s j, w.jobs.get? s = some j → j.worker = .running →
    j.settlements = 0 ∧ j.future = .pending
  slots : w.Quiescent →
    (w.pendingSlots.value : Int) = w.maxPendingJobs - w.pendingJobs - w.active
  lengths : ∀ key q, w.queues.get? key = some q → q.jobs.size = q.jobs.items.length
  pending : w.pendingJobs = Queued.queueLengths w.queues
  order : ∀ key, (∃ q, w.queues.get? key = some q ∧ q.jobs.size ≠ 0) ∧
      w.requestOrder.count key = 1 ∨
    (¬ ∃ q, w.queues.get? key = some q ∧ q.jobs.size ≠ 0) ∧ w.requestOrder.count key = 0
  active_nonneg : 0 ≤ w.active
  active_le : w.active ≤ w.peak

theorem Inv.holds_iff (h : Inv lower 0 w) {s : Nat} {j : Job α ε} (hget : w.jobs.get? s = some j) :
    w.Holds s j ↔ j.place ≠ .done := by
  obtain ⟨_, hok⟩ := h.jobs.ok s j hget
  constructor
  · rintro (⟨q, hq, hin⟩ | hat | ⟨hcalled, hclaimed⟩ | hworker) hdone
    · obtain ⟨_, j', hj', _, hplace⟩ := h.queued.mem _ q j.item hq hin
      rw [hok.sequence_eq, hget] at hj'
      obtain rfl := Option.some.inj hj'
      exact absurd (hplace.symm.trans hdone) (by simp)
    · exact absurd ((hok.here hat).symm.trans hdone) (by simp)
    · have := (hok.settled hdone).2.2.2 hcalled
      rw [hclaimed] at this
      exact absurd this (by simp)
    · exact hworker (hok.settled hdone).2.2.1
  · intro hne
    cases hplace : j.place with
    | queued => exact .inl (h.queued.held s j hget hplace)
    | active =>
      by_cases hworker : j.worker = .none
      · obtain ⟨hclaimed, hat | hcalled⟩ := hok.active hplace hworker
        · exact .inr (.inl hat)
        · exact .inr (.inr (.inl ⟨hcalled, hclaimed⟩))
      · exact .inr (.inr (.inr hworker))
    | done => exact absurd hplace hne

theorem Inv.safe (h : Inv lower 0 w) : Safe w where
  calm := h.calm
  once s j hget := (h.jobs.ok s j hget).2.starts_le
  settled s j hget := by
    obtain ⟨_, hok⟩ := h.jobs.ok s j hget
    rw [h.holds_iff hget]
    refine ⟨fun hne => (hok.unsettled hne).symm, fun hdone => ?_⟩
    obtain ⟨hfuture, hone, _⟩ := hok.settled (not_not.1 hdone)
    exact ⟨hone, hfuture⟩
  running s j hget hworker := by
    obtain ⟨_, hok⟩ := h.jobs.ok s j hget
    refine (hok.unsettled fun hdone => ?_).symm
    have hnone := (hok.settled hdone).2.2.1
    rw [hworker] at hnone
    exact absurd hnone (by simp)
  slots hquiescent := by
    have hacquired : w.acquired = 0 := Dict.count_eq_zero.2 fun id a ha => by
      simpa using hquiescent.1 id a ha
    have hreserved : w.pendingSlots.reserved = 0 :=
      List.countP_eq_zero.2 fun waiter hwaiter => by simpa using hquiescent.2 waiter hwaiter
    have hbalanced := h.balanced
    have hpending := h.pending
    have hactive := h.active
    simp only [World.Balanced, hacquired, Semaphore.total, hreserved] at hbalanced
    omega
  lengths key q hq := (h.queued.valid key q hq).1.size
  pending := by
    rw [h.pending, h.queued.queueLengths_eq, h.queued.length_allItems h.sequence_eq]
    rfl
  order key := by
    cases hq : w.queues.get? key with
    | none =>
      refine .inr ⟨?_, count_of_unlisted (h.queued.unlisted key hq)⟩
      rintro ⟨q, hq', _⟩
      exact absurd hq' (by simp)
    | some q =>
      obtain ⟨hvalid, hitems, _⟩ := h.queued.valid key q hq
      refine .inl ⟨⟨q, rfl, ?_⟩, (h.queued.listed key q hq).count_eq⟩
      rw [hvalid.size]
      exact fun hzero => hitems (List.eq_nil_of_length_eq_zero hzero)
  active_nonneg := by
    have := h.active
    omega
  active_le := h.active_le

theorem broker_safe {threadCapacity maxPendingJobs : Int} {cpus : Nat}
    (h : (machine lower threadCapacity maxPendingJobs cpus).Reachable w) : Safe w :=
  (inv_of_reachable h).safe

/-- The second call waits for the slot of the first one, whose operation runs; its own submission is
rejected after the call was queued. -/
def twoCalls : List (Action Nat Nat) :=
  [.run 1 ⟨['r'], none, [], ['v'], [], 0⟩, .dispatch, .submit .accepted, .dispatch,
    .run 2 ⟨['r'], none, [], ['v'], [], 0⟩, .stepAdmission 2, .pickUp 1, .work 1 none,
    .work 1 (some (.ok 5)), .complete 1, .dispatch, .stepAdmission 2, .resume 2, .dispatch,
    .submit (.raised true 7), .reject, .dispatch, .pickUp 2]

theorem twoCalls_jobs : ((machine id 1 1 1).exec (World.init 1 1 1) twoCalls).map (fun w =>
    (w.pendingSlots.value, w.jobs.entries.map fun e => (e.1, e.2.starts, e.2.settlements))) =
      some (1, [(1, 1, 1), (2, 0, 1)]) := by
  decide

theorem twoCalls_safe : ∃ w, (machine id 1 1 1).exec (World.init 1 1 1) twoCalls = some w ∧
    Safe w ∧ w.pendingSlots.value = 1 := by
  obtain ⟨w, hexec, hjobs⟩ := Option.map_eq_some_iff.1 twoCalls_jobs
  have hreachable : (machine id 1 1 1).Reachable w := Machine.Reachable.of_exec hexec
  exact ⟨w, hexec, broker_safe hreachable, congrArg Prod.fst hjobs⟩

end Sunpack.AsyncWork
