import Sunpack.Executor.Admission
import Sunpack.CpuBudget.Safety

/-!
# No admission wakeup is lost

A release that falls between a worker's predicate and its wait wakes nobody. That is harmless: the
credits that made the predicate false belong to other workers, so one of these is awake, and it looks
at the queue once more before it waits (`Inv.dozing`). A job that arrives when everybody is in the wait
has its notice on the way (`Inv.asleep`).
-/

namespace Sunpack.Executor

open Lib CpuBudget

variable {ι : Type} [Fintype ι] [DecidableEq ι] {o : Options} {s t : State ι}

/-! ## Queues -/

theorem queuesEmpty_iff {ι : Type} (s : State ι) : s.queuesEmpty = true ↔ s.queued = [] := by
  simp [State.queuesEmpty, State.queued]

theorem popNextJob_spec {ι : Type} {s t : State ι} {job : Job} (h : s.popNextJob = some (job, t)) :
    t.phase = s.phase ∧ t.reserved = s.reserved ∧ t.notices = s.notices ∧
      t.broadcasts = s.broadcasts ∧ t.stopping = s.stopping := by
  unfold State.popNextJob at h
  split at h
  · obtain ⟨rfl, rfl⟩ := Prod.mk.inj (Option.some.inj h)
    exact ⟨rfl, rfl, rfl, rfl, rfl⟩
  · split at h
    · obtain ⟨rfl, rfl⟩ := Prod.mk.inj (Option.some.inj h)
      exact ⟨rfl, rfl, rfl, rfl, rfl⟩
    · cases h

/-- A queue that is not empty has a next job. -/
theorem exists_popNextJob {ι : Type} {s : State ι} (h : s.queued ≠ []) :
    ∃ job t, s.popNextJob = some (job, t) := by
  unfold State.popNextJob
  rcases hforeground : s.foreground with _ | ⟨job, rest⟩
  · rcases hbackground : s.background with _ | ⟨job, rest⟩
    · exact absurd (by rw [State.queued, hforeground, hbackground]; rfl) h
    · exact ⟨job, _, rfl⟩
  · exact ⟨job, _, rfl⟩

/-! ## Credits -/

theorem grant_one {capacity reserved : Nat} :
    grant capacity reserved 1 1 = if reserved < capacity then 1 else 0 := by
  unfold grant
  split_ifs <;> omega

theorem release_spec {ι : Type} (o : Options) (s : State ι) (count : Nat) :
    (s.release o count).phase = s.phase ∧ (s.release o count).queued = s.queued ∧
      (s.release o count).parked = s.parked ∧ (s.release o count).stopping = s.stopping ∧
      (s.release o count).reserved = s.reserved - count := by
  unfold State.release
  by_cases hzero : count = 0
  · rw [if_pos hzero]
    exact ⟨rfl, rfl, rfl, rfl, by omega⟩
  · rw [if_neg hzero]
    refine ⟨rfl, rfl, rfl, rfl, ?_⟩
    show afterRelease s.reserved count = s.reserved - count
    unfold afterRelease
    split_ifs <;> omega

omit [DecidableEq ι] in
theorem exists_of_held_pos {w : Phase → Nat} {f : ι → Phase} (h : 0 < held w f) :
    ∃ i, 0 < w (f i) := by
  by_contra hnone
  rw [held_eq_zero fun i => Nat.eq_zero_of_not_pos fun hi => hnone ⟨i, hi⟩] at h
  exact Nat.lt_irrefl 0 h

theorem isAwake_of_credits {p : Phase} (h : 0 < p.credits) : p.isAwake = true := by
  cases p with
  | claiming => rfl
  | running job extra => rfl
  | drained job => rfl
  | _ => exact absurd h (Nat.lt_irrefl 0)

/-! ## The budget's own steps -/

section

variable {τ κ : Type} [DecidableEq τ] [DecidableEq κ] {b : CpuBudget.State τ κ} {i : τ}

/-- A call of `acquire_extra` that nobody disturbs grants what is said here. -/
theorem acquire_undisturbed (hidle : b.phase i = .idle) (c : κ) (wanted minimumGrant : Nat) :
    ∃ b', (budget τ κ o).Steps b b' ∧ b'.phase i = .idle ∧
      b'.reserved = b.reserved + grant o.capacity b.reserved wanted minimumGrant ∧
      b'.extra c = b.extra c + grant o.capacity b.reserved wanted minimumGrant := by
  have hstart : (budget τ κ o).Steps b (b.acquireUpTo i (some c) wanted minimumGrant) :=
    .tail (.acquireExtra i c wanted minimumGrant) .refl (if_pos hidle)
  unfold CpuBudget.State.acquireUpTo at hstart
  unfold grant
  by_cases hwanted : wanted = 0
  · exact ⟨b, .refl, hidle, by rw [if_pos hwanted]; rfl, by rw [if_pos hwanted]; rfl⟩
  rw [if_neg hwanted] at hstart ⊢
  by_cases hminimum : max 1 minimumGrant > wanted
  · exact ⟨b, .refl, hidle, by rw [if_pos hminimum]; rfl, by rw [if_pos hminimum]; rfl⟩
  rw [if_neg hminimum] at hstart ⊢
  have hround := hstart.tail (.go i false) (by
    simp only [budget, CpuBudget.step, CpuBudget.State.setPhase, Function.update_self]
    rfl)
  unfold CpuBudget.State.acquireRound at hround
  by_cases hfull : b.reserved ≥ o.capacity
  · rw [if_pos hfull] at hround
    exact ⟨_, hround, Function.update_self _ _ _, by rw [if_pos hfull]; rfl,
      by rw [if_pos hfull]; rfl⟩
  rw [if_neg hfull] at hround ⊢
  by_cases hsmall : min wanted (o.capacity - b.reserved) < max 1 minimumGrant
  · rw [if_pos hsmall] at hround
    exact ⟨_, hround, Function.update_self _ _ _, by rw [if_pos hsmall]; rfl,
      by rw [if_pos hsmall]; rfl⟩
  rw [if_neg hsmall] at hround ⊢
  rw [if_pos ⟨rfl, rfl⟩] at hround
  have hadd := hround.tail (.go i false) (by
    simp only [budget, CpuBudget.step, CpuBudget.State.setPhase, Function.update_self]
    rfl)
  exact ⟨_, hadd, Function.update_self _ _ _, rfl, Function.update_self _ _ _⟩

/-- A release that nobody disturbs, and whether the callback follows. -/
theorem release_undisturbed {count : Nat} (hreleasing : b.phase i = .releasing count) :
    ∃ b', (budget τ κ o).Steps b b' ∧ b'.phase i = .idle ∧
      b'.reserved = afterRelease b.reserved count ∧
      b'.callbacks = if o.capacityAvailable ∧ b.reserved ≥ o.capacity ∧
        afterRelease b.reserved count < o.capacity then b.callbacks + 1 else b.callbacks := by
  have hload : (budget τ κ o).Steps b (b.setPhase i (.returning count b.reserved)) :=
    .tail (.go i false) .refl (by simp only [budget, CpuBudget.step, hreleasing])
  have hround := hload.tail (.go i false) (by
    simp only [budget, CpuBudget.step, CpuBudget.State.setPhase, Function.update_self]
    rfl)
  unfold CpuBudget.State.returnRound at hround
  unfold afterRelease
  dsimp only at hround
  rw [if_pos ⟨rfl, rfl⟩] at hround
  by_cases hedge : o.capacityAvailable ∧ b.reserved ≥ o.capacity ∧
      (if count ≥ b.reserved then 0 else b.reserved - count) < o.capacity
  · rw [if_pos hedge] at hround
    have hcallback := hround.tail (.go i false) (by
      simp only [budget, CpuBudget.step, CpuBudget.State.setPhase, Function.update_self]
      rfl)
    exact ⟨_, hcallback, Function.update_self _ _ _, rfl, by rw [if_pos hedge]⟩
  · rw [if_neg hedge] at hround
    exact ⟨_, hround, Function.update_self _ _ _, rfl, by rw [if_neg hedge]; rfl⟩

end

/-! ## The invariant -/

structure Inv (o : Options) (s : State ι) : Prop where
  credits : s.reserved = held Phase.credits s.phase
  mutex : ∀ w w', (s.phase w).holdsMutex = true → (s.phase w').holdsMutex = true → w = w'
  /-- The predicate saw a job, and the mutex keeps it. -/
  ready : ∀ w, s.phase w = .admitted ∨ s.phase w = .claiming → s.queued ≠ []
  /-- The predicate was false although there is a job: somebody else has the credits. -/
  dozing : ∀ w, s.phase w = .dozing → s.queued ≠ [] → ∃ u, (s.phase u).isAwake = true
  asleep : s.queued ≠ [] →
    (∃ u, (s.phase u).isAwake = true) ∨ 0 < s.notices ∨ 0 < s.broadcasts
  stopping : ∀ w, s.phase w = .exited → s.stopping = true
  exited : (∀ w, s.phase w = .exited) → s.queued = [] ∧ s.parked = []

omit [DecidableEq ι] in
theorem inv_init [Nonempty ι] : Inv o ({} : State ι) where
  credits := (held_eq_zero fun _ => rfl).symm
  mutex w w' h _ := by cases h
  ready w h := by rcases h with h | h <;> cases h
  dozing w h := by cases h
  asleep h := absurd rfl h
  stopping w h := by cases h
  exited h := by
    obtain ⟨w⟩ := ‹Nonempty ι›
    cases h w

/-- A worker goes on and is awake. -/
theorem Inv.goOn (h : Inv o s) {w : ι} {p : Phase} (hphase : t.phase = Function.update s.phase w p)
    (hawake : p.isAwake = true) (hcredits : t.reserved + (s.phase w).credits = s.reserved + p.credits)
    (hmutex : p.holdsMutex = true → ∀ u, (s.phase u).holdsMutex = true → u = w)
    (hready : ∀ u, t.phase u = .admitted ∨ t.phase u = .claiming → t.queued ≠ [])
    (hstopping : t.stopping = s.stopping) : Inv o t := by
  have hself : (t.phase w).isAwake = true := by
    rw [hphase, Function.update_self]
    exact hawake
  have hother (u : ι) (hne : u ≠ w) : t.phase u = s.phase u := by
    rw [hphase, Function.update_of_ne hne]
  refine ⟨?_, fun u u' hu hu' => ?_, hready, fun _ _ _ => ⟨w, hself⟩, fun _ => .inl ⟨w, hself⟩,
    fun u hu => ?_, fun hall => ?_⟩
  · have hheld := held_update Phase.credits s.phase w p
    have hold := h.credits
    rw [hphase]
    omega
  · by_cases heq : u = w
    · by_cases heq' : u' = w
      · rw [heq, heq']
      · rw [hother u' heq'] at hu'
        rw [hphase, heq, Function.update_self] at hu
        exact heq.trans (hmutex hu u' hu').symm
    · by_cases heq' : u' = w
      · rw [hother u heq] at hu
        rw [hphase, heq', Function.update_self] at hu'
        exact (hmutex hu' u hu).trans heq'.symm
      · rw [hother u heq] at hu
        rw [hother u' heq'] at hu'
        exact h.mutex u u' hu hu'
  · rw [hstopping]
    by_cases heq : u = w
    · rw [heq] at hu
      rw [hu] at hself
      cases hself
    · exact h.stopping u (hother u heq ▸ hu)
  · rw [hall w] at hself
    cases hself

omit [DecidableEq ι] in
/-- Something is done under the mutex by a thread that is no worker. -/
theorem Inv.outside (h : Inv o s) (hfree : s.free = true) (hphase : t.phase = s.phase)
    (hreserved : t.reserved = s.reserved) (hstopping : s.stopping = true → t.stopping = true)
    (hasleep : t.queued ≠ [] →
      s.queued ≠ [] ∧ s.notices ≤ t.notices ∧ s.broadcasts ≤ t.broadcasts ∨ 0 < t.notices)
    (hexited : s.stopping = true → s.queued = [] → s.parked = [] → t.queued = [] ∧ t.parked = [])
    [Nonempty ι] : Inv o t := by
  have hnobody (w : ι) : (s.phase w).holdsMutex = false := of_decide_eq_true hfree w
  refine ⟨?_, fun w w' hw hw' => ?_, fun w hw => ?_, fun w hw => ?_, fun hne => ?_, fun w hw => ?_,
    fun hall => ?_⟩
  · rw [hreserved, hphase]
    exact h.credits
  · rw [hphase, hnobody w] at hw
    cases hw
  · rw [hphase] at hw
    have := hnobody w
    rcases hw with hw | hw <;> rw [hw] at this <;> cases this
  · rw [hphase] at hw
    have := hnobody w
    rw [hw] at this
    cases this
  · rcases hasleep hne with ⟨hold, hnotices, hbroadcasts⟩ | hnotice
    · rw [hphase]
      refine (h.asleep hold).imp_right fun hor => ?_
      exact hor.imp (fun hpos => by omega) fun hpos => by omega
    · exact .inr (.inl hnotice)
  · exact hstopping (h.stopping w (hphase ▸ hw))
  · rw [hphase] at hall
    obtain ⟨w⟩ := ‹Nonempty ι›
    obtain ⟨hqueued, hparked⟩ := h.exited hall
    exact hexited (h.stopping w (hall w)) hqueued hparked

omit [DecidableEq ι] in
/-- Workers are woken, or a notice finds nobody. -/
theorem Inv.woken (h : Inv o s)
    (hphase : ∀ w, t.phase w = s.phase w ∨ s.phase w = .asleep ∧ t.phase w = .awake)
    (hwakes : (∃ w, s.phase w = .asleep ∧ t.phase w = .awake) ∨ ∀ w, s.phase w ≠ .asleep)
    (hreserved : t.reserved = s.reserved) (hqueued : t.queued = s.queued)
    (hparked : t.parked = s.parked) (hstopping : t.stopping = s.stopping) : Inv o t := by
  have hcredits (w : ι) : (t.phase w).credits = (s.phase w).credits := by
    rcases hphase w with heq | ⟨hold, hnew⟩
    · rw [heq]
    · rw [hold, hnew]
      rfl
  have hkept (w : ι) (p : Phase) (hp : p ≠ .awake) (hw : t.phase w = p) : s.phase w = p := by
    rcases hphase w with heq | ⟨-, hnew⟩
    · exact heq ▸ hw
    · exact absurd (hw.symm.trans hnew) hp
  have hmutex (w : ι) (hw : (t.phase w).holdsMutex = true) : (s.phase w).holdsMutex = true := by
    rcases hphase w with heq | ⟨-, hnew⟩
    · exact heq ▸ hw
    · rw [hnew] at hw
      cases hw
  have hawake (w : ι) (hw : (s.phase w).isAwake = true) : (t.phase w).isAwake = true := by
    rcases hphase w with heq | ⟨hold, -⟩
    · exact heq ▸ hw
    · rw [hold] at hw
      cases hw
  refine ⟨?_, fun w w' hw hw' => h.mutex w w' (hmutex w hw) (hmutex w' hw'), fun w hw => ?_,
    fun w hw hne => ?_, fun hne => .inl ?_, fun w hw => ?_, fun hall => ?_⟩
  · rw [hreserved, h.credits]
    unfold held
    exact Finset.sum_congr rfl fun w _ => (hcredits w).symm
  · rw [hqueued]
    refine h.ready w (hw.imp (hkept w _ ?_) (hkept w _ ?_))
    all_goals exact Phase.noConfusion
  · rw [hqueued] at hne
    obtain ⟨u, hu⟩ := h.dozing w (hkept w _ Phase.noConfusion hw) hne
    exact ⟨u, hawake u hu⟩
  · rcases hwakes with ⟨w, -, hw⟩ | hnobody
    · exact ⟨w, by rw [hw]; rfl⟩
    · -- nobody is in the wait: somebody is awake, or is falling asleep, or all are gone
      rw [hqueued] at hne
      by_contra hnone
      have hold (u : ι) : (s.phase u).isAwake = false := by
        rw [Bool.eq_false_iff]
        exact fun hu => hnone ⟨u, hawake u hu⟩
      refine hne (h.exited fun w => ?_).1
      have hw := hold w
      rcases hp : s.phase w with _ | _ | _ | _ | _ | _ | _ | _ | _
      case dozing =>
        obtain ⟨u, hu⟩ := h.dozing w hp hne
        rw [hold u] at hu
        cases hu
      case asleep => exact absurd hp (hnobody w)
      case exited => rfl
      all_goals
        rw [hp] at hw
        cases hw
  · rw [hstopping]
    exact h.stopping w (hkept w _ Phase.noConfusion hw)
  · rw [hqueued, hparked]
    exact h.exited fun w => hkept w _ Phase.noConfusion (hall w)

/-- One worker is woken. -/
theorem Inv.wakes (h : Inv o s) {w : ι} (hw : s.phase w = .asleep)
    (hphase : t.phase = Function.update s.phase w .awake) (hreserved : t.reserved = s.reserved)
    (hqueued : t.queued = s.queued) (hparked : t.parked = s.parked)
    (hstopping : t.stopping = s.stopping) : Inv o t := by
  have hself : t.phase w = .awake := by rw [hphase, Function.update_self]
  refine h.woken (fun u => ?_) (.inl ⟨w, hw, hself⟩) hreserved hqueued hparked hstopping
  by_cases heq : u = w
  · exact .inr ⟨heq ▸ hw, heq ▸ hself⟩
  · exact .inl (by rw [hphase, Function.update_of_ne heq])

/-- A worker without credits goes off while, if there is a job, another one is awake. -/
theorem Inv.goOff (h : Inv o s) {w : ι} {p : Phase} (hcredits : (s.phase w).credits = 0)
    (hnone : p.credits = 0) (hready : p ≠ .admitted ∧ p ≠ .claiming)
    (hmutex : p.holdsMutex = true → ∀ u, (s.phase u).holdsMutex = true → u = w)
    (hothers : s.queued ≠ [] → ∃ u, u ≠ w ∧ (s.phase u).isAwake = true)
    (hexited : p = .exited → s.stopping = true ∧ s.queued = [] ∧ s.parked = []) :
    Inv o (s.setPhase w p) := by
  have hself : (s.setPhase w p).phase w = p := Function.update_self _ _ _
  have hother (u : ι) (hne : u ≠ w) : (s.setPhase w p).phase u = s.phase u :=
    Function.update_of_ne hne _ _
  have hstays (hne : s.queued ≠ []) : ∃ u, ((s.setPhase w p).phase u).isAwake = true := by
    obtain ⟨u, hu, hawake⟩ := hothers hne
    exact ⟨u, by rw [hother u hu]; exact hawake⟩
  refine ⟨?_, fun u u' hu hu' => ?_, fun u hu => ?_, fun _ _ => hstays, fun hne => .inl (hstays hne),
    fun u hu => ?_, fun hall => ?_⟩
  · have hheld := held_update Phase.credits s.phase w p
    have hold := h.credits
    show s.reserved = held Phase.credits (Function.update s.phase w p)
    omega
  · by_cases heq : u = w
    · by_cases heq' : u' = w
      · rw [heq, heq']
      · rw [hother u' heq'] at hu'
        rw [heq, hself] at hu
        exact heq.trans (hmutex hu u' hu').symm
    · by_cases heq' : u' = w
      · rw [hother u heq] at hu
        rw [heq', hself] at hu'
        exact (hmutex hu' u hu).trans heq'.symm
      · rw [hother u heq] at hu
        rw [hother u' heq'] at hu'
        exact h.mutex u u' hu hu'
  · by_cases heq : u = w
    · rw [heq, hself] at hu
      exact absurd hu (not_or.2 hready)
    · exact h.ready u (hother u heq ▸ hu)
  · by_cases heq : u = w
    · rw [heq, hself] at hu
      exact (hexited hu).1
    · exact h.stopping u (hother u heq ▸ hu)
  · exact (hexited (hself.symm.trans (hall w))).2

theorem Inv.evaluate (h : Inv o s) {w : ι} (hw : s.phase w = .awake) (hfree : s.free = true) :
    Inv o (s.evaluate o w) := by
  have hnobody (u : ι) : (s.phase u).holdsMutex = false := of_decide_eq_true hfree u
  have hmutex (p : Phase) : p.holdsMutex = true → ∀ u, (s.phase u).holdsMutex = true → u = w := by
    intro _ u hu
    rw [hnobody u] at hu
    cases hu
  have hcredits : (s.phase w).credits = 0 := by
    rw [hw]
    rfl
  unfold State.evaluate
  dsimp only
  split_ifs with hpredicate hleaves
  · -- the last look of a worker that leaves
    simp only [Bool.and_eq_true, List.isEmpty_iff, queuesEmpty_iff] at hleaves
    refine h.goOff hcredits rfl ⟨Phase.noConfusion, Phase.noConfusion⟩ (hmutex _) ?_ fun _ => ?_
    · exact fun hne => absurd hleaves.1.2 hne
    · exact ⟨hleaves.1.1, hleaves.1.2, hleaves.2⟩
  · have hne : s.queued ≠ [] := by
      intro hempty
      rw [Bool.eq_false_iff.2 hleaves, Bool.or_false, (queuesEmpty_iff s).2 hempty] at hpredicate
      cases hpredicate
    refine h.goOn rfl rfl ?_ (hmutex _) (fun _ _ => hne) rfl
    rw [hcredits]
    rfl
  · refine h.goOff hcredits rfl ⟨Phase.noConfusion, Phase.noConfusion⟩ (hmutex _) (fun hne => ?_)
      Phase.noConfusion
    -- the budget is full, and not through this worker
    have hfull : ¬ s.reserved < o.capacity := by
      intro hlt
      refine hpredicate ?_
      rw [Bool.eq_false_iff.2 ((queuesEmpty_iff s).not.2 hne), State.canAcquireBase,
        decide_eq_true hlt]
      rfl
    have hcapacity : 1 ≤ o.capacity := Nat.le_max_left _ _
    obtain ⟨u, hu⟩ := exists_of_held_pos (w := Phase.credits) (f := s.phase)
      (by rw [← h.credits]; omega)
    refine ⟨u, ?_, isAwake_of_credits hu⟩
    rintro rfl
    omega

theorem Inv.pop (h : Inv o s) {w : ι} (hw : s.phase w = .claiming) {job : Job} {r : State ι}
    (hpop : s.popNextJob = some (job, r)) (notices : Nat) :
    Inv o { r.setPhase w (.running job 0) with notices := notices } := by
  obtain ⟨hphase, hreserved, -, -, hstopping⟩ := popNextJob_spec hpop
  refine h.goOn (w := w) (p := .running job 0) ?_ rfl ?_ (fun hholds => by cases hholds)
    (fun u hu => ?_) hstopping
  · show Function.update r.phase w _ = _
    rw [hphase]
  · rw [hw]
    show r.reserved + 1 = s.reserved + (1 + 0)
    omega
  · -- the mutex was this worker's
    exfalso
    replace hu : Function.update r.phase w (.running job 0) u = .admitted ∨
      Function.update r.phase w (.running job 0) u = .claiming := hu
    by_cases heq : u = w
    · rw [heq, Function.update_self] at hu
      rcases hu with hu | hu <;> cases hu
    · rw [Function.update_of_ne heq, hphase] at hu
      refine heq (h.mutex u w ?_ (by rw [hw]; rfl))
      rcases hu with hu | hu <;> rw [hu] <;> rfl

/-- A running worker changes its credits. -/
theorem Inv.credit (h : Inv o s) {w : ι} {p : Phase} (hphase : t.phase = Function.update s.phase w p)
    (hawake : p.isAwake = true) (hmutex : p.holdsMutex = false)
    (hcredits : t.reserved + (s.phase w).credits = s.reserved + p.credits)
    (hqueued : t.queued = s.queued) (hstopping : t.stopping = s.stopping) : Inv o t := by
  refine h.goOn hphase hawake hcredits (fun hholds => ?_) (fun u hu => ?_) hstopping
  · rw [hmutex] at hholds
    cases hholds
  · rw [hqueued]
    rw [hphase] at hu
    by_cases heq : u = w
    · rw [heq, Function.update_self] at hu
      rcases hu with hu | hu <;> rw [hu] at hmutex <;> cases hmutex
    · rw [Function.update_of_ne heq] at hu
      exact h.ready u hu

theorem Inv.release (h : Inv o s) {w : ι} {p : Phase} {count : Nat} (hawake : p.isAwake = true)
    (hmutex : p.holdsMutex = false) (hcount : (s.phase w).credits = p.credits + count) :
    Inv o ((s.setPhase w p).release o count) := by
  obtain ⟨hphase, hqueued, -, hstopping, hreserved⟩ := release_spec o (s.setPhase w p) count
  refine h.credit (hphase.trans rfl) hawake hmutex ?_ hqueued hstopping
  have hle := le_held Phase.credits s.phase w
  have htotal := h.credits
  rw [hreserved]
  show s.reserved - count + (s.phase w).credits = s.reserved + p.credits
  omega

omit [DecidableEq ι] in
theorem Inv.submit [Nonempty ι] (h : Inv o s) (hfree : s.free = true) (job : Job) :
    Inv o (s.submit job) := by
  unfold State.submit
  split_ifs with hstopping hfull
  · exact h
  · exact h
  · refine h.outside hfree ?_ ?_ (fun hs => absurd hs hstopping) (fun _ => .inr (Nat.succ_pos _))
      fun hs => absurd hs hstopping
    all_goals
      unfold State.pushBack
      split_ifs <;> rfl

omit [DecidableEq ι] in
theorem Inv.cancel [Nonempty ι] (h : Inv o s) (hfree : s.free = true) (token : Nat) :
    Inv o (s.cancel token) := by
  unfold State.cancel
  split_ifs with hforeground hbackground
  · refine h.outside hfree rfl rfl (fun hs => hs) (fun hne => .inl ⟨?_, le_rfl, le_rfl⟩)
      fun _ hqueued hparked => ⟨?_, hparked⟩
    · intro hempty
      obtain ⟨hf, hb⟩ := List.append_eq_nil_iff.1 hempty
      exact hne (by simp [State.queued, hf, hb])
    · obtain ⟨hf, hb⟩ := List.append_eq_nil_iff.1 hqueued
      simp [State.queued, hf, hb]
  · refine h.outside hfree rfl rfl (fun hs => hs) (fun hne => .inl ⟨?_, le_rfl, le_rfl⟩)
      fun _ hqueued hparked => ⟨?_, hparked⟩
    · intro hempty
      obtain ⟨hf, hb⟩ := List.append_eq_nil_iff.1 hempty
      exact hne (by simp [State.queued, hf, hb])
    · obtain ⟨hf, hb⟩ := List.append_eq_nil_iff.1 hqueued
      simp [State.queued, hf, hb]
  · exact h.outside hfree rfl rfl (fun hs => hs) (fun hne => .inl ⟨hne, le_rfl, Nat.le_succ _⟩)
      fun _ hqueued hparked => ⟨hqueued, hparked⟩

omit [DecidableEq ι] in
theorem Inv.resume [Nonempty ι] (h : Inv o s) (hfree : s.free = true) {job : Job}
    (hjob : job ∈ s.parked) :
    Inv o { s.pushFront job with parked := s.parked.erase job, notices := s.notices + 1 } := by
  refine h.outside hfree ?_ ?_ (fun hs => ?_) (fun _ => .inr (Nat.succ_pos _)) fun _ _ hparked => ?_
  · unfold State.pushFront
    split_ifs <;> rfl
  · unfold State.pushFront
    split_ifs <;> rfl
  · unfold State.pushFront
    split_ifs <;> exact hs
  · rw [hparked] at hjob
    cases hjob

theorem Inv.step [Nonempty ι] (h : Inv o s) {a : Action ι} (hstep : step o s a = some t) :
    Inv o t := by
  unfold Executor.step at hstep
  cases a with
  | evaluate w =>
    dsimp only at hstep
    split_ifs at hstep with hcond
    exact Option.some.inj hstep ▸ h.evaluate hcond.1 hcond.2
  | sleep w =>
    dsimp only at hstep
    split_ifs at hstep with hw
    refine Option.some.inj hstep ▸ h.goOff (by rw [hw]; rfl) rfl
      ⟨Phase.noConfusion, Phase.noConfusion⟩ (fun hholds => by cases hholds) (fun hne => ?_)
      Phase.noConfusion
    obtain ⟨u, hu⟩ := h.dozing w hw hne
    refine ⟨u, ?_, hu⟩
    rintro rfl
    rw [hw] at hu
    cases hu
  | tryAcquireBase w =>
    dsimp only at hstep
    split_ifs at hstep with hw hgrant
    · refine Option.some.inj hstep ▸ h.goOn (w := w) rfl rfl ?_ (fun _ u hu => ?_) (fun _ _ => ?_) rfl
      · rw [hw]
        show s.reserved + 1 + 0 = s.reserved + 1
        omega
      · exact h.mutex u w hu (by rw [hw]; rfl)
      · exact h.ready w (.inl hw)
    · exact Option.some.inj hstep ▸ h.credit (w := w) rfl rfl rfl (by rw [hw]; rfl) rfl rfl
  | pop w =>
    dsimp only at hstep
    split_ifs at hstep with hw
    split at hstep
    · rename_i job r hpop
      exact Option.some.inj hstep ▸ h.pop hw hpop _
    · cases hstep
  | acquireExtra w wanted minimumGrant =>
    dsimp only at hstep
    split at hstep
    · rename_i job extra hw
      refine Option.some.inj hstep ▸ h.credit (w := w) rfl rfl rfl ?_ rfl rfl
      rw [hw]
      dsimp only [Phase.credits]
      omega
    · cases hstep
  | releaseExtra w count =>
    dsimp only at hstep
    split at hstep
    · rename_i job extra hw
      refine Option.some.inj hstep ▸ h.release rfl rfl ?_
      rw [hw]
      dsimp only [Phase.credits]
      omega
    · cases hstep
  | destroyContext w =>
    dsimp only at hstep
    split at hstep
    · rename_i job extra hw
      refine Option.some.inj hstep ▸ h.release rfl rfl ?_
      rw [hw]
      rfl
    · cases hstep
  | releaseBase w =>
    dsimp only at hstep
    split at hstep
    · rename_i job hw
      refine Option.some.inj hstep ▸ h.release rfl rfl ?_
      rw [hw]
      rfl
    · cases hstep
  | finish w memoryRetry =>
    dsimp only at hstep
    split at hstep
    · rename_i job hw
      split_ifs at hstep
      all_goals exact Option.some.inj hstep ▸ h.credit (w := w) rfl rfl rfl (by rw [hw]; rfl) rfl rfl
    · cases hstep
  | submit job =>
    dsimp only at hstep
    split_ifs at hstep with hfree
    exact Option.some.inj hstep ▸ h.submit hfree job
  | resume job =>
    dsimp only at hstep
    split_ifs at hstep with hcond
    exact Option.some.inj hstep ▸ h.resume hcond.1 hcond.2
  | cancel token =>
    dsimp only at hstep
    split_ifs at hstep with hfree
    exact Option.some.inj hstep ▸ h.cancel hfree token
  | stop =>
    dsimp only at hstep
    split_ifs at hstep with hfree hstopping
    · exact Option.some.inj hstep ▸ h
    · exact Option.some.inj hstep ▸ h.outside hfree rfl rfl (fun _ => rfl)
        (fun hne => .inl ⟨hne, le_rfl, Nat.le_succ _⟩) fun _ hqueued hparked => ⟨hqueued, hparked⟩
  | notifyOne w =>
    cases w with
    | some w =>
      dsimp only at hstep
      split_ifs at hstep with hnotices hw
      exact Option.some.inj hstep ▸ h.wakes hw rfl rfl rfl rfl rfl
    | none =>
      dsimp only at hstep
      split_ifs at hstep with hnotices hnobody
      exact Option.some.inj hstep ▸ h.woken (fun u => .inl rfl) (.inr hnobody) rfl rfl rfl rfl
  | notifyAll =>
    dsimp only at hstep
    split_ifs at hstep with hbroadcasts
    refine Option.some.inj hstep ▸ h.woken (fun u => ?_) ?_ rfl rfl rfl rfl
    · dsimp only [State.wakeAll]
      split_ifs with hu
      · exact .inr ⟨hu, rfl⟩
      · exact .inl rfl
    · by_cases hany : ∃ u, s.phase u = .asleep
      · obtain ⟨u, hu⟩ := hany
        exact .inl ⟨u, hu, if_pos hu⟩
      · exact .inr fun u hu => hany ⟨u, hu⟩
  | wake w =>
    dsimp only at hstep
    split_ifs at hstep with hw
    exact Option.some.inj hstep ▸ h.wakes hw rfl rfl rfl rfl rfl

theorem inv_of_reachable [Nonempty ι] (h : (executor ι o).Reachable s) : Inv o s :=
  h.invariant inv_init fun _ _ _ hs hstep => hs.step hstep

/-- A worker that has claimed a credit finds a job. -/
theorem claiming_pops [Nonempty ι] (h : (executor ι o).Reachable s) {w : ι}
    (hw : s.phase w = .claiming) : ∃ job r, s.popNextJob = some (job, r) :=
  exists_popNextJob ((inv_of_reachable h).ready w (.inr hw))

/-- No admission wakeup is lost: with a job, a credit and no notice under way some worker is awake. -/
theorem no_wakeup_lost (ι : Type) [Fintype ι] [DecidableEq ι] [Nonempty ι] (o : Options) (s : State ι)
    (h : (executor ι o).Reachable s) (hnotices : s.notices = 0) (hbroadcasts : s.broadcasts = 0)
    (hqueued : s.queued ≠ []) : s.canAcquireBase o = true → ∃ w, (s.phase w).isAwake = true := by
  intro _
  refine ((inv_of_reachable h).asleep hqueued).resolve_right ?_
  rw [hnotices, hbroadcasts]
  omega

/-- A credit comes back between the predicate of worker 0 and its wait, and the notice is lost. -/
def lostNotice : List (Action (Fin 2)) :=
  [.submit ⟨0, false⟩, .notifyOne none, .evaluate 1, .tryAcquireBase 1, .pop 1, .acquireExtra 1 1 1,
    .submit ⟨1, true⟩, .notifyOne none, .evaluate 0, .releaseExtra 1 1, .notifyOne none, .sleep 0]

theorem lostNotice_state : ((executor (Fin 2) ⟨2, true⟩).exec {} lostNotice).map
    (fun s => (s.notices, s.broadcasts, s.queued, s.reserved, s.phase 0)) =
      some (0, 0, [⟨1, true⟩], 1, .asleep) := by
  decide

/-- Worker 0 sleeps over a job and a credit; worker 1 is awake. -/
theorem no_wakeup_lost_race : ∃ s, (executor (Fin 2) ⟨2, true⟩).exec {} lostNotice = some s ∧
    s.queued = [⟨1, true⟩] ∧ s.phase 0 = .asleep ∧ ∃ w, (s.phase w).isAwake = true := by
  obtain ⟨s, hexec, hstate⟩ := Option.map_eq_some_iff.1 lostNotice_state
  simp only [Prod.mk.injEq] at hstate
  obtain ⟨hnotices, hbroadcasts, hqueued, hreserved, hasleep⟩ := hstate
  refine ⟨s, hexec, hqueued, hasleep, ?_⟩
  refine no_wakeup_lost (Fin 2) ⟨2, true⟩ s (Machine.Reachable.of_exec hexec) hnotices hbroadcasts
    ?_ ?_
  · rw [hqueued]
    exact List.cons_ne_nil _ _
  · rw [State.canAcquireBase, hreserved]
    rfl

end Sunpack.Executor
