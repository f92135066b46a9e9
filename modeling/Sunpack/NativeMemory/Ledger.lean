import Sunpack.NativeMemory.Moves

/-!
# What the memory manager keeps

What is committed is what is allocated, the cached headroom is the last sample with the commitments since
then, a grant never takes the headroom under zero, and every job that is parked gets one answer.
-/

namespace Sunpack.NativeMemory

open Lib State

variable {ι : Type} [DecidableEq ι]

/-! ## What allocations commit -/

omit [DecidableEq ι] in
theorem committedOf_cons (a : Allocation ι) (l : List (Allocation ι)) :
    committedOf (a :: l) = commitment a.size + committedOf l := by
  simp [committedOf]

omit [DecidableEq ι] in
theorem committedOf_perm {a b : List (Allocation ι)} (h : a.Perm b) :
    committedOf a = committedOf b :=
  (h.map _).sum_eq

/-- What the allocations of a job commit. -/
def owned (allocations : List (Allocation ι)) (j : ι) : Nat :=
  committedOf (allocations.filter fun a => a.job = j)

theorem owned_perm {a b : List (Allocation ι)} (h : a.Perm b) (j : ι) : owned a j = owned b j :=
  committedOf_perm (h.filter _)

theorem owned_cons (a : Allocation ι) (l : List (Allocation ι)) (j : ι) :
    owned (a :: l) j = (if a.job = j then commitment a.size else 0) + owned l j := by
  unfold owned
  by_cases hj : a.job = j
  · rw [List.filter_cons_of_pos (by simpa using hj), committedOf_cons, if_pos hj]
  · rw [List.filter_cons_of_neg (by simpa using hj), if_neg hj, Nat.zero_add]

/-! ## The ledger -/

/-- All allocations that are not yet released. -/
def State.all (s : State ι) : List (Allocation ι) := s.allocations ++ s.freeing

structure Ledger (s : State ι) : Prop where
  committed : ∀ j, (s.job j).committed = owned s.all j
  cached : s.cached + s.live = s.sampled + s.base
  addresses : (s.all.map Allocation.address).Nodup

section

variable {s t : State ι}

/-- The allocations may move from the table to those that are being freed. -/
theorem Ledger.of_perm (h : Ledger s) (hjob : ∀ j, (t.job j).committed = (s.job j).committed)
    (hall : t.all.Perm s.all) (hcached : t.cached = s.cached) (hsampled : t.sampled = s.sampled)
    (hbase : t.base = s.base) : Ledger t := by
  constructor
  · intro j
    rw [hjob, owned_perm hall]
    exact h.committed j
  · have hlive : t.live = s.live := committedOf_perm hall
    rw [hcached, hlive, hsampled, hbase]
    exact h.cached
  · exact (hall.map _).nodup_iff.2 h.addresses

theorem Ledger.grant (h : Ledger s) {j : ι} {size address : Nat}
    (hfresh : ∀ a ∈ s.allocations ++ s.freeing, a.address ≠ address) :
    Ledger (s.grant j size address) := by
  have hall : (s.grant j size address).all = ⟨address, j, size⟩ :: s.all := rfl
  constructor
  · intro i
    rw [hall, owned_cons, ← h.committed i]
    by_cases hi : i = j
    · subst hi
      simp [State.grant, State.modify]
      omega
    · simp [State.grant, State.modify, Function.update_of_ne hi, Ne.symm hi]
  · have hlive : (s.grant j size address).live = commitment size + s.live := committedOf_cons _ _
    have hcached := h.cached
    rw [hlive]
    simp only [State.grant, State.modify]
    omega
  · rw [hall, List.map_cons, List.nodup_cons]
    refine ⟨?_, h.addresses⟩
    intro hmem
    obtain ⟨a, ha, haddress⟩ := List.mem_map.1 hmem
    exact hfresh a ha haddress

theorem Ledger.free (h : Ledger s) {address : Nat} (hfree : s.free address = some t) : Ledger t := by
  obtain ⟨a, front, rest, hsplit, rfl⟩ := free_cases hfree
  refine h.of_perm (fun _ => rfl) ?_ rfl rfl rfl
  have hafter : (front ++ rest ++ a :: s.freeing).Perm (a :: (front ++ rest ++ s.freeing)) :=
    List.perm_middle
  have hbefore : (front ++ a :: (rest ++ s.freeing)).Perm (a :: (front ++ (rest ++ s.freeing))) :=
    List.perm_middle
  rw [List.append_assoc front rest s.freeing] at hafter
  simpa [State.all, hsplit] using hafter.trans hbefore.symm

omit [DecidableEq ι] in
theorem released_perm {front rest : List (Allocation ι)} {a : Allocation ι}
    (hsplit : s.freeing = front ++ a :: rest) :
    s.all.Perm (a :: (s.allocations ++ (front ++ rest))) := by
  rw [State.all, hsplit, ← List.append_assoc, ← List.append_assoc]
  exact List.perm_middle

theorem Ledger.released (h : Ledger s) {address : Nat} (hreleased : s.released address = some t) :
    Ledger t := by
  obtain ⟨a, front, rest, hsplit, rfl⟩ := released_cases hreleased
  have hperm := released_perm hsplit
  constructor
  · intro j
    have hcommitted := h.committed j
    rw [owned_perm hperm, owned_cons] at hcommitted
    by_cases hj : j = a.job
    · subst hj
      rw [if_pos rfl] at hcommitted
      simp only [State.modify, State.all, Function.update_self]
      omega
    · rw [if_neg (Ne.symm hj)] at hcommitted
      simp only [State.modify, State.all, Function.update_of_ne hj]
      omega
  · have hcached := h.cached
    have hlive : s.live = commitment a.size + committedOf (s.allocations ++ (front ++ rest)) := by
      rw [← committedOf_cons]
      exact committedOf_perm hperm
    simp only [State.modify, State.live]
    omega
  · have haddresses := (hperm.map Allocation.address).nodup_iff.1 h.addresses
    rw [List.map_cons, List.nodup_cons] at haddresses
    exact haddresses.2

theorem resume_committed (s : State ι) (j i : ι) :
    ((s.resume j).job i).committed = (s.job i).committed := by
  unfold State.resume State.modify
  dsimp only
  by_cases hi : i = j
  · rw [hi, Function.update_self]
  · rw [Function.update_of_ne hi]

theorem dismiss_committed (s : State ι) (j i : ι) :
    ((s.dismiss j).job i).committed = (s.job i).committed := by
  unfold State.dismiss State.modify
  dsimp only
  by_cases hi : i = j
  · rw [hi, Function.update_self]
  · rw [Function.update_of_ne hi]

theorem Ledger.own (h : Ledger s) (hown : Own s t) : Ledger t := by
  cases hown with
  | sample headroom => exact ⟨h.committed, rfl, h.addresses⟩
  | forgo hcommitted _ => exact h.of_perm hcommitted (.refl _) rfl rfl rfl
  | grant _ hfresh _ => exact h.grant hfresh
  | dismiss _ => exact h.of_perm (dismiss_committed s _) (.refl _) rfl rfl rfl
  | free hfree => exact h.free hfree
  | released hreleased => exact h.released hreleased
  | flags | enroll | refuse | cancel | stop => exact ⟨h.committed, h.cached, h.addresses⟩

theorem Ledger.move (h : Ledger s) (hmove : Move s t) : Ledger t := by
  cases hmove with
  | own hown => exact h.own hown
  | @resume front rest w callbacks stopped _ _ =>
    exact h.of_perm (resume_committed s w.job) (.refl _) rfl rfl rfl
  | _ => exact ⟨h.committed, h.cached, h.addresses⟩

end

/-! ## The jobs in the ledger -/

/-- The answers to a job that are still to come. -/
def State.pending (s : State ι) (j : ι) : Nat :=
  s.waiters.countP (fun w => w.job = j) + s.monitor.callbacks.countP (Callback.isReady j)

/-- Why a job may be told not to resume. -/
def State.refusable (s : State ι) (j : ι) : Prop := s.cancelRequested j = true ∨ s.stopping = true

structure Members (s : State ι) : Prop where
  nodup : s.jobs.Nodup
  outside : ∀ j, j ∉ s.jobs → (s.job j).admission = 0
  away : ∀ j ∈ s.jobs, s.caller j ≠ .resting ∧ s.caller j ≠ .refused ∧ ∀ w ∈ s.waiters, w.job ≠ j
  pending : ∀ j, s.pending j = if s.caller j = .parked then 1 else 0
  refused : ∀ j, s.caller j = .refused → s.stopping = true
  /-- Every job that is parked gets one answer. -/
  parks : ∀ j, s.parks.count j = (s.answers.map Prod.fst).count j +
    if s.caller j = .parked ∨ s.caller j = .refused then 1 else 0
  answers : ∀ j, (j, false) ∈ s.answers → s.refusable j
  callbacks : ∀ j announced, .ready j false announced ∈ s.monitor.callbacks → s.refusable j

section

variable {s t : State ι}

/-- A move that takes no job in or out and leaves the executor where it is. -/
theorem Members.of_eq (h : Members s) (hjobs : t.jobs = s.jobs)
    (hadmission : ∀ j, (t.job j).admission = (s.job j).admission ∨ (t.job j).admission = 0)
    (hcaller : t.caller = s.caller) (hwaiters : ∀ w ∈ t.waiters, ∃ v ∈ s.waiters, v.job = w.job)
    (hpending : ∀ j, t.pending j = s.pending j)
    (hcallbacks : ∀ j announced, .ready j false announced ∈ t.monitor.callbacks →
      .ready j false announced ∈ s.monitor.callbacks ∨ t.refusable j)
    (hparks : t.parks = s.parks) (hanswers : t.answers = s.answers)
    (hstop : s.stopping = true → t.stopping = true)
    (hcancel : ∀ j, s.cancelRequested j = true → t.cancelRequested j = true) : Members t := by
  have hrefusable : ∀ j, s.refusable j → t.refusable j := fun j hj => hj.imp (hcancel j) hstop
  constructor
  · rw [hjobs]
    exact h.nodup
  · intro j hj
    rw [hjobs] at hj
    rcases hadmission j with heq | heq
    · rw [heq]
      exact h.outside j hj
    · exact heq
  · intro j hj
    rw [hjobs] at hj
    obtain ⟨hresting, hrefused, haway⟩ := h.away j hj
    rw [hcaller]
    refine ⟨hresting, hrefused, fun w hw => ?_⟩
    obtain ⟨v, hv, hjob⟩ := hwaiters w hw
    rw [← hjob]
    exact haway v hv
  · intro j
    rw [hpending, hcaller]
    exact h.pending j
  · intro j hj
    rw [hcaller] at hj
    exact hstop (h.refused j hj)
  · rw [hparks, hanswers, hcaller]
    exact h.parks
  · intro j hj
    rw [hanswers] at hj
    exact hrefusable j (h.answers j hj)
  · intro j announced hj
    rcases hcallbacks j announced hj with hj | hj
    · exact hrefusable j (h.callbacks j announced hj)
    · exact hj

theorem Members.not_pending (h : Members s) {j : ι} (hcaller : s.caller j ≠ .parked) :
    (∀ w ∈ s.waiters, w.job ≠ j) ∧ ∀ c ∈ s.monitor.callbacks, c.isReady j = false := by
  have hzero := h.pending j
  rw [if_neg hcaller, State.pending, Nat.add_eq_zero_iff, List.countP_eq_zero,
    List.countP_eq_zero] at hzero
  exact ⟨fun w hw => by simpa using hzero.1 w hw, fun c hc => by simpa using hzero.2 c hc⟩

theorem Members.enroll (h : Members s) {j : ι}
    (hcaller : s.caller j = .resting ∨ s.caller j = .resumed) : Members (s.enroll j) := by
  have hparked : s.caller j ≠ .parked := by rcases hcaller with h | h <;> simp [h]
  have hrefused : s.caller j ≠ .refused := by rcases hcaller with h | h <;> simp [h]
  obtain ⟨hwaiters, -⟩ := h.not_pending hparked
  have hsame : ∀ i phase, phase ≠ Caller.running →
      ((s.enroll j).caller i = phase ↔ s.caller i = phase ∧ i ≠ j) := by
    intro i phase hphase
    by_cases hi : i = j
    · subst hi
      simp [State.enroll, hphase.symm]
    · simp [State.enroll, hi]
  constructor
  · simp only [State.enroll]
    split_ifs with hmem
    · exact h.nodup
    · exact h.nodup.append (List.nodup_singleton j) (by simpa using hmem)
  · intro i hi
    apply h.outside i
    intro hmem
    apply hi
    simp only [State.enroll]
    split_ifs
    · exact hmem
    · exact List.mem_append_left _ hmem
  · intro i hi
    have hcases : i = j ∨ i ∈ s.jobs := by
      simp only [State.enroll] at hi
      split_ifs at hi
      · exact .inr hi
      · rcases List.mem_append.1 hi with hi | hi
        · exact .inr hi
        · exact .inl (List.mem_singleton.1 hi)
    by_cases heq : i = j
    · subst heq
      simpa [State.enroll] using hwaiters
    · have haway := h.away i (hcases.resolve_left heq)
      simpa [State.enroll, Function.update_of_ne heq] using haway
  · intro i
    have hpending := h.pending i
    have hiff := hsame i .parked (by simp)
    by_cases hi : i = j
    · subst hi
      rw [if_neg hparked] at hpending
      rw [if_neg (by simp [hiff])]
      exact hpending
    · simp only [hiff, hi, ne_eq, not_false_eq_true, and_true]
      exact hpending
  · intro i hi
    exact h.refused i ((hsame i .refused (by simp)).1 hi).1
  · intro i
    have hparks := h.parks i
    have hiff := hsame i .parked (by simp)
    have hiff' := hsame i .refused (by simp)
    by_cases hi : i = j
    · subst hi
      rw [if_neg (by simp [hparked, hrefused])] at hparks
      rw [if_neg (by simp [hiff, hiff'])]
      exact hparks
    · simp only [hiff, hiff', hi, ne_eq, not_false_eq_true, and_true]
      exact hparks
  · exact h.answers
  · exact h.callbacks

theorem Members.dismiss (h : Members s) {j : ι} (hcaller : s.caller j = .running) :
    Members (s.dismiss j) := by
  obtain ⟨hwaiters, hcallbacks⟩ := h.not_pending (j := j) (by simp [hcaller])
  constructor
  · exact h.nodup.erase j
  · intro i hi
    by_cases heq : i = j
    · subst heq
      simp [State.dismiss, State.modify]
    · have hout : i ∉ s.jobs := fun hmem => hi ((List.mem_erase_of_ne heq).2 hmem)
      simpa [State.dismiss, State.modify, Function.update_of_ne heq] using h.outside i hout
  · intro i hi
    obtain ⟨hne, hmem⟩ := h.nodup.mem_erase_iff.1 hi
    simpa [State.dismiss, State.modify, Function.update_of_ne hne] using h.away i hmem
  · intro i
    have hpending := h.pending i
    by_cases heq : i = j
    · subst heq
      simpa [State.dismiss, State.modify, State.pending, hcaller] using hpending
    · simpa [State.dismiss, State.modify, State.pending, Function.update_of_ne heq] using hpending
  · intro i hi
    by_cases heq : i = j
    · subst heq
      simp [State.dismiss, State.modify] at hi
    · exact h.refused i (by simpa [State.dismiss, State.modify, Function.update_of_ne heq] using hi)
  · intro i
    have hparks := h.parks i
    by_cases heq : i = j
    · subst heq
      simpa [State.dismiss, State.modify, hcaller] using hparks
    · simpa [State.dismiss, State.modify, Function.update_of_ne heq] using hparks
  · exact h.answers
  · exact h.callbacks

theorem Members.wait (h : Members s) {j : ι} {notice : Bool} (hcaller : s.caller j = .resting) :
    Members (s.wait j notice) := by
  have hout : j ∉ s.jobs := fun hmem => (h.away j hmem).1 hcaller
  constructor
  · exact h.nodup
  · exact h.outside
  · intro i hi
    have hne : i ≠ j := fun heq => hout (heq ▸ hi)
    obtain ⟨hresting, hrefused, haway⟩ := h.away i hi
    refine ⟨by simpa [State.wait, Function.update_of_ne hne] using hresting,
      by simpa [State.wait, Function.update_of_ne hne] using hrefused, fun w hw => ?_⟩
    rcases List.mem_append.1 hw with hw | hw
    · exact haway w hw
    · rw [List.mem_singleton.1 hw]
      exact hne.symm
  · intro i
    have hpending := h.pending i
    by_cases heq : i = j
    · subst heq
      rw [if_neg (by simp [hcaller]), State.pending] at hpending
      simp only [State.wait, State.pending, List.countP_append, Function.update_self, if_true]
      simp
      omega
    · simpa [State.wait, State.pending, Function.update_of_ne heq, Ne.symm heq] using hpending
  · intro i hi
    by_cases heq : i = j
    · subst heq
      simp [State.wait] at hi
    · exact h.refused i (by simpa [State.wait, Function.update_of_ne heq] using hi)
  · intro i
    have hparks := h.parks i
    by_cases heq : i = j
    · subst heq
      simpa [State.wait, hcaller] using hparks
    · simpa [State.wait, Function.update_of_ne heq, Ne.symm heq] using hparks
  · exact h.answers
  · exact h.callbacks

theorem Members.turnAway (h : Members s) {j : ι} (hcaller : s.caller j = .resting)
    (hstop : s.stopping = true) :
    Members { s with caller := Function.update s.caller j .refused, parks := s.parks ++ [j] } := by
  have hout : j ∉ s.jobs := fun hmem => (h.away j hmem).1 hcaller
  constructor
  · exact h.nodup
  · exact h.outside
  · intro i hi
    have hne : i ≠ j := fun heq => hout (heq ▸ hi)
    simpa [Function.update_of_ne hne] using h.away i hi
  · intro i
    have hpending := h.pending i
    by_cases heq : i = j
    · subst heq
      simpa [State.pending, hcaller] using hpending
    · simpa [State.pending, Function.update_of_ne heq] using hpending
  · intro i _
    exact hstop
  · intro i
    have hparks := h.parks i
    by_cases heq : i = j
    · subst heq
      simpa [hcaller] using hparks
    · simpa [Function.update_of_ne heq, Ne.symm heq] using hparks
  · exact h.answers
  · exact h.callbacks

/-- `ready` is called, for a job that is refused or parked; `m` are the callbacks that are left. -/
theorem Members.answer (h : Members s) {j : ι} {resumed : Bool} {m : Monitor ι}
    (hcaller : s.caller j = .parked ∨ s.caller j = .refused)
    (hwhy : resumed = false → s.refusable j)
    (hpending : ∀ i, s.waiters.countP (fun w => w.job = i) + m.callbacks.countP (Callback.isReady i) =
      s.pending i - if i = j ∧ s.caller j = .parked then 1 else 0)
    (hcallbacks : ∀ i announced, .ready i false announced ∈ m.callbacks → s.refusable i) :
    Members { s.answer j resumed with monitor := m } := by
  constructor
  · exact h.nodup
  · exact h.outside
  · intro i hi
    obtain ⟨hresting, hrefused, haway⟩ := h.away i hi
    by_cases heq : i = j
    · subst heq
      simpa [State.answer] using haway
    · have hsame : (s.answer j resumed).caller i = s.caller i := Function.update_of_ne heq _ _
      exact ⟨hsame ▸ hresting, hsame ▸ hrefused, haway⟩
  · intro i
    have hbefore := h.pending i
    show s.waiters.countP (fun w => w.job = i) + m.callbacks.countP (Callback.isReady i) = _
    rw [hpending i, hbefore]
    by_cases heq : i = j
    · subst heq
      by_cases hparked : s.caller i = .parked
      · simp [State.answer, hparked]
      · simp [State.answer, hparked]
    · simp [State.answer, heq]
  · intro i hi
    by_cases heq : i = j
    · subst heq
      simp [State.answer] at hi
    · exact h.refused i (by simpa [State.answer, Function.update_of_ne heq] using hi)
  · intro i
    have hparks := h.parks i
    by_cases heq : i = j
    · subst heq
      rw [if_pos hcaller] at hparks
      simpa [State.answer] using hparks
    · simpa [State.answer, Function.update_of_ne heq, Ne.symm heq] using hparks
  · intro i hi
    rcases List.mem_append.1 hi with hi | hi
    · exact h.answers i hi
    · obtain ⟨rfl, hfalse⟩ := Prod.mk.inj (List.mem_singleton.1 hi)
      exact hwhy hfalse.symm
  · exact hcallbacks

theorem pending_append (s : State ι) (waiters : List (Waiter ι)) (callbacks extra : List (Callback ι))
    (stopped : Bool) (j : ι) :
    (s.passing waiters (callbacks ++ extra) stopped).pending j =
      waiters.countP (fun w => w.job = j) + callbacks.countP (Callback.isReady j) +
        extra.countP (Callback.isReady j) := by
  simp only [State.pending, State.passing, Monitor.callbacks, List.countP_append, Nat.add_assoc]

theorem countP_plain {callbacks : List (Callback ι)} (h : ∀ c ∈ callbacks, c.Plain) (j : ι) :
    callbacks.countP (Callback.isReady j) = 0 :=
  List.countP_eq_zero.2 fun c hc => by simp [h c hc j]

theorem not_ready_of_plain {callbacks : List (Callback ι)} (h : ∀ c ∈ callbacks, c.Plain) {j : ι}
    {resumed announced : Bool} (hmem : Callback.ready j resumed announced ∈ callbacks) : False := by
  have hready := h _ hmem j
  simp [Callback.isReady] at hready

/-- Taking a waiter out and its answer in changes nothing that is pending. -/
theorem pending_answered {front rest : List (Waiter ι)} {w : Waiter ι}
    {callbacks : List (Callback ι)} {stopped : Bool} (hwaiters : s.waiters = front ++ w :: rest)
    (hmonitor : s.monitor = .calling callbacks stopped) (resumed : Bool) (r : State ι) (j : ι) :
    (r.passing (front ++ rest) (callbacks ++ [.ready w.job resumed w.announced]) stopped).pending j =
      s.pending j := by
  rw [pending_append]
  simp only [State.pending, hwaiters, hmonitor, Monitor.callbacks]
  by_cases hj : w.job = j
  · simp [Callback.isReady, hj]
    omega
  · simp [Callback.isReady, hj]

omit [DecidableEq ι] in
theorem mem_callbacks_passing {r : State ι} {waiters : List (Waiter ι)}
    {callbacks extra : List (Callback ι)} {stopped : Bool} {c : Callback ι}
    (h : c ∈ (r.passing waiters (callbacks ++ extra) stopped).monitor.callbacks) :
    c ∈ callbacks ∨ c ∈ extra := List.mem_append.1 h

theorem resume_admission (s : State ι) {j i : ι} (hne : i ≠ j) :
    ((s.resume j).job i).admission = (s.job i).admission := by
  unfold State.resume State.modify
  dsimp only
  rw [Function.update_of_ne hne]

theorem Members.resume (h : Members s) {front rest : List (Waiter ι)} {w : Waiter ι}
    {callbacks : List (Callback ι)} {stopped : Bool} (hwaiters : s.waiters = front ++ w :: rest)
    (hmonitor : s.monitor = .calling callbacks stopped) :
    Members ((s.resume w.job).passing (front ++ rest) (callbacks ++ [.ready w.job true w.announced])
      stopped) := by
  have hmem : w ∈ s.waiters := by simp [hwaiters]
  have hout : w.job ∉ s.jobs := fun hjob => (h.away w.job hjob).2.2 w hmem rfl
  have hpending := pending_answered hwaiters hmonitor true (s.resume w.job)
  have hone := h.pending w.job
  have hparked : s.caller w.job = .parked := by
    by_contra hne
    exact (h.not_pending hne).1 w hmem rfl
  rw [if_pos hparked, State.pending, hwaiters] at hone
  have hothers : ∀ v ∈ front ++ rest, v.job ≠ w.job := by
    simp only [List.countP_append, List.countP_cons, decide_true, if_true] at hone
    have hzero : (front ++ rest).countP (fun v => v.job = w.job) = 0 := by
      rw [List.countP_append]
      omega
    intro v hv
    simpa using List.countP_eq_zero.1 hzero v hv
  constructor
  · exact h.nodup.append (List.nodup_singleton _) (by simpa using hout)
  · intro i hi
    have happend : i ∉ s.jobs ++ [w.job] := hi
    have hi' : i ∉ s.jobs ∧ i ≠ w.job := by simpa using happend
    show ((s.resume w.job).job i).admission = 0
    rw [resume_admission s hi'.2]
    exact h.outside i hi'.1
  · intro i hi
    rcases List.mem_append.1 hi with hi | hi
    · obtain ⟨hresting, hrefused, haway⟩ := h.away i hi
      refine ⟨hresting, hrefused, fun v hv => haway v ?_⟩
      rw [hwaiters]
      rcases List.mem_append.1 hv with hv | hv
      · exact List.mem_append_left _ hv
      · exact List.mem_append_right _ (List.mem_cons_of_mem _ hv)
    · rw [List.mem_singleton.1 hi]
      show s.caller w.job ≠ .resting ∧ s.caller w.job ≠ .refused ∧ ∀ v ∈ front ++ rest, v.job ≠ w.job
      rw [hparked]
      exact ⟨by simp, by simp, hothers⟩
  · intro i
    rw [hpending i]
    exact h.pending i
  · exact h.refused
  · exact h.parks
  · exact h.answers
  · intro i announced hi
    rcases mem_callbacks_passing hi with hi | hi
    · exact h.callbacks i announced (by rw [hmonitor]; exact hi)
    · simp at hi

theorem Members.own (h : Members s) (hown : Own s t) : Members t := by
  cases hown with
  | enroll hcaller => exact h.enroll hcaller
  | dismiss hcaller => exact h.dismiss hcaller
  | refuse hcaller =>
    refine h.answer (m := s.monitor) (.inr hcaller) (fun _ => .inr (h.refused _ hcaller)) ?_ h.callbacks
    intro i
    rw [if_neg (by simp [hcaller])]
    rfl
  | forgo _ hadmission =>
    exact h.of_eq rfl hadmission rfl (fun w hw => ⟨w, hw, rfl⟩) (fun _ => rfl) (fun _ _ => .inl) rfl rfl
      id fun _ => id
  | @grant j size address hcaller hfresh hfit =>
    have hadmission : ∀ i, i ∉ s.jobs → ((s.grant j size address).job i).admission = 0 := by
      intro i hi
      have hzero := h.outside i hi
      by_cases heq : i = j
      · subst heq
        simp [State.grant, State.modify, hzero]
      · simpa [State.grant, State.modify, Function.update_of_ne heq] using hzero
    exact ⟨h.nodup, hadmission, h.away, h.pending, h.refused, h.parks, h.answers, h.callbacks⟩
  | free hfree =>
    obtain ⟨a, front, rest, -, rfl⟩ := free_cases hfree
    exact h.of_eq rfl (fun _ => .inl rfl) rfl (fun w hw => ⟨w, hw, rfl⟩) (fun _ => rfl)
      (fun _ _ => .inl) rfl rfl id fun _ => id
  | released hreleased =>
    obtain ⟨a, front, rest, -, rfl⟩ := released_cases hreleased
    refine h.of_eq rfl (fun i => .inl ?_) rfl (fun w hw => ⟨w, hw, rfl⟩) (fun _ => rfl)
      (fun _ _ => .inl) rfl rfl id fun _ => id
    by_cases heq : i = a.job
    · subst heq
      simp [State.modify]
    · simp [State.modify, Function.update_of_ne heq]
  | cancel j =>
    refine h.of_eq rfl (fun _ => .inl rfl) rfl (fun w hw => ⟨w, hw, rfl⟩) (fun _ => rfl)
      (fun _ _ => .inl) rfl rfl id fun i hi => ?_
    by_cases heq : i = j
    · subst heq
      simp
    · simpa [Function.update_of_ne heq] using hi
  | stop =>
    exact h.of_eq rfl (fun _ => .inl rfl) rfl (fun w hw => ⟨w, hw, rfl⟩) (fun _ => rfl)
      (fun _ _ => .inl) rfl rfl (fun _ => rfl) fun _ => id
  | sample | flags =>
    exact h.of_eq rfl (fun _ => .inl rfl) rfl (fun w hw => ⟨w, hw, rfl⟩) (fun _ => rfl)
      (fun _ _ => .inl) rfl rfl id fun _ => id

theorem Members.move (h : Members s) (hmove : Move s t) : Members t := by
  cases hmove with
  | own hown => exact h.own hown
  | wait hcaller _ => exact h.wait hcaller
  | turnAway hcaller hstop => exact h.turnAway hcaller hstop
  | resume hwaiters hmonitor => exact h.resume hwaiters hmonitor
  | observed pressure hmonitor =>
    refine h.of_eq rfl (fun _ => .inl rfl) rfl (fun w hw => ⟨w, hw, rfl⟩) (fun j => ?_)
      (fun j announced hj => ?_) rfl rfl id fun _ => id
    · simp only [State.pending, hmonitor]
      rfl
    · simp [Monitor.callbacks] at hj
  | wakes callbacks hmonitor hplain =>
    refine h.of_eq rfl (fun _ => .inl rfl) rfl (fun w hw => ⟨w, hw, rfl⟩) (fun j => ?_)
      (fun j announced hj => (not_ready_of_plain hplain hj).elim) rfl rfl id fun _ => id
    have hzero := countP_plain hplain j
    simp only [State.pending, State.passing, Monitor.callbacks, hmonitor, hzero, List.countP_nil]
  | @drop front rest w callbacks stopped hwaiters hmonitor hstopped hwhy =>
    refine h.of_eq rfl (fun _ => .inl rfl) rfl (fun v hv => ⟨v, ?_, rfl⟩)
      (pending_answered hwaiters hmonitor false s) (fun j announced hj => ?_) rfl rfl id fun _ => id
    · rw [hwaiters]
      rcases List.mem_append.1 hv with hv | hv
      · exact List.mem_append_left _ hv
      · exact List.mem_append_right _ (List.mem_cons_of_mem _ hv)
    · rcases mem_callbacks_passing hj with hj | hj
      · exact .inl (by rw [hmonitor]; exact hj)
      · simp only [List.mem_singleton, Callback.ready.injEq] at hj
        obtain ⟨rfl, -⟩ := hj
        exact .inr (hwhy.elim (fun hs => .inr (hstopped hs)) .inl)
  | @announce front rest w callbacks stopped announced extra hwaiters hmonitor hplain =>
    refine h.of_eq rfl (fun _ => .inl rfl) rfl (fun v hv => ?_) (fun j => ?_)
      (fun j announced hj => .inl ?_) rfl rfl id fun _ => id
    · rw [hwaiters]
      rcases List.mem_append.1 hv with hv | hv
      · exact ⟨v, List.mem_append_left _ hv, rfl⟩
      · rcases List.mem_cons.1 hv with hv | hv
        · exact ⟨w, by simp, by rw [hv]⟩
        · exact ⟨v, List.mem_append_right _ (List.mem_cons_of_mem _ hv), rfl⟩
    · rw [pending_append, countP_plain hplain]
      simp only [State.pending, hwaiters, hmonitor, Monitor.callbacks, List.countP_append,
        List.countP_cons, Nat.add_zero]
    · rcases mem_callbacks_passing hj with hj | hj
      · rw [hmonitor]
        exact hj
      · exact (not_ready_of_plain hplain hj).elim
  | @ready j resumed announced rest stopped hmonitor =>
    have hmem : Callback.ready j resumed announced ∈ s.monitor.callbacks := by
      simp [hmonitor, Monitor.callbacks]
    have hparked : s.caller j = .parked := by
      by_contra hne
      have hready := (h.not_pending hne).2 _ hmem
      simp [Callback.isReady] at hready
    refine h.answer (.inl hparked) (fun hfalse => ?_) (fun i => ?_) (fun i a hi => ?_)
    · subst hfalse
      exact h.callbacks j announced hmem
    · simp only [State.pending, hmonitor, Monitor.callbacks, List.countP_cons, Callback.isReady, hparked,
        and_true]
      by_cases hi : i = j
      · simp [hi]
      · simp [hi, Ne.symm hi]
    · exact h.callbacks i a (by rw [hmonitor]; exact List.mem_cons_of_mem _ hi)
  | @called c rest stopped hmonitor hplain =>
    refine h.of_eq rfl (fun _ => .inl rfl) rfl (fun w hw => ⟨w, hw, rfl⟩) (fun j => ?_)
      (fun j announced hj => .inl ?_) rfl rfl id fun _ => id
    · simp [State.pending, hmonitor, Monitor.callbacks, hplain j]
    · rw [hmonitor]
      exact List.mem_cons_of_mem _ hj
  | @passed stopped hmonitor =>
    have hnone : (if stopped then Monitor.returned else Monitor.waiting : Monitor ι).callbacks = [] := by
      cases stopped <;> rfl
    refine h.of_eq rfl (fun _ => .inl rfl) rfl (fun w hw => ⟨w, hw, rfl⟩) (fun j => ?_)
      (fun j announced hj => ?_) rfl rfl id fun _ => id
    · simp only [State.pending, hnone, hmonitor]
      rfl
    · simp [hnone] at hj

/-! ## Room -/

theorem sum_update {jobs : List ι} (hnodup : jobs.Nodup) (f : ι → Job) (j : ι) (b : Job) :
    (jobs.map fun i => (Function.update f j b i).admission).sum +
        (if j ∈ jobs then (f j).admission else 0) =
      (jobs.map fun i => (f i).admission).sum + if j ∈ jobs then b.admission else 0 := by
  induction jobs with
  | nil => simp
  | cons i jobs ih =>
    obtain ⟨hout, hnodup⟩ := List.nodup_cons.1 hnodup
    have hrest := ih hnodup
    by_cases hi : i = j
    · subst hi
      simp only [hout, if_false, Nat.add_zero] at hrest
      simp [hrest]
      omega
    · simp only [List.map_cons, List.sum_cons, Function.update_of_ne hi, List.mem_cons, Ne.symm hi,
        false_or]
      omega

theorem admissions_modify (h : Members s) (j : ι) (f : Job → Job) :
    (s.modify j f).admissions + (if j ∈ s.jobs then (s.job j).admission else 0) =
      s.admissions + if j ∈ s.jobs then (f (s.job j)).admission else 0 :=
  sum_update h.nodup s.job j (f (s.job j))

theorem room_grant (h : Members s) {j : ι} {size address : Nat}
    (hfit : canFit s.headroom (s.uncovered j size)) : 0 ≤ (s.grant j size address).headroom := by
  have hsum := admissions_modify h j fun job =>
    { job with
      admission := job.admission - min (commitment size) job.admission
      committed := job.committed + commitment size }
  have hafter : (s.grant j size address).headroom =
      s.cached - commitment size - (s.modify j fun job =>
        { job with
          admission := job.admission - min (commitment size) job.admission
          committed := job.committed + commitment size }).admissions := rfl
  obtain ⟨-, hfit⟩ := hfit
  unfold State.uncovered State.headroom at hfit
  rw [hafter]
  by_cases hj : j ∈ s.jobs
  · simp only [if_pos hj] at hsum
    omega
  · have hzero := h.outside j hj
    simp only [if_neg hj] at hsum
    omega

theorem admissions_append (h : Members s) {j : ι} (hout : j ∉ s.jobs) (n : Nat) :
    ((s.jobs ++ [j]).map fun i =>
      ((s.modify j fun job => { job with admission := n }).job i).admission).sum = s.admissions + n := by
  have hsum := admissions_modify h j fun job => { job with admission := n }
  rw [if_neg hout, if_neg hout, Nat.add_zero, Nat.add_zero] at hsum
  rw [List.map_append, List.sum_append, ← hsum]
  simp [State.admissions, State.modify]

theorem room_resume (h : Members s) {j : ι} (hout : j ∉ s.jobs) (hroom : 0 ≤ s.headroom) :
    0 ≤ (s.resume j).headroom := by
  obtain ⟨n, hn⟩ : ∃ n, n = min (s.reservation j) (max s.headroom 0).toNat := ⟨_, rfl⟩
  have hafter : (s.resume j).headroom = s.cached - (s.admissions + n : Nat) := by
    rw [← admissions_append h hout n, hn]
    rfl
  have hle : n ≤ (max s.headroom 0).toNat := hn ▸ Nat.min_le_right _ _
  clear hn
  unfold State.headroom at hroom hle
  omega

theorem admissions_enroll (h : Members s) (j : ι) : (s.enroll j).admissions = s.admissions := by
  show ((if j ∈ s.jobs then s.jobs else s.jobs ++ [j]).map fun i => (s.job i).admission).sum = _
  split_ifs with hj
  · rfl
  · rw [List.map_append, List.sum_append]
    simp [h.outside j hj, State.admissions]

theorem admissions_dismiss (h : Members s) (j : ι) : (s.dismiss j).admissions ≤ s.admissions := by
  have hsum := admissions_modify h j fun job => { job with admission := 0 }
  have hsub : ((s.jobs.erase j).map fun i =>
      ((s.modify j fun job => { job with admission := 0 }).job i).admission).sum ≤
        (s.modify j fun job => { job with admission := 0 }).admissions :=
    (List.erase_sublist.map _).sum_le_sum fun _ _ => Nat.zero_le _
  have hafter : (s.dismiss j).admissions = ((s.jobs.erase j).map fun i =>
      ((s.modify j fun job => { job with admission := 0 }).job i).admission).sum := rfl
  simp only [ite_self] at hsum
  omega

theorem Own.room (hown : Own s t) (h : Members s) (hsame : t.samples = s.samples)
    (hroom : 0 ≤ s.headroom) : 0 ≤ t.headroom := by
  cases hown with
  | sample => simp [State.sampledAt] at hsame
  | @forgo job _ hadmission =>
    have hle : (s.jobs.map fun j => (job j).admission).sum ≤ s.admissions := by
      apply List.sum_le_sum
      intro j _
      rcases hadmission j with heq | heq
      · rw [heq]
      · rw [heq]
        exact Nat.zero_le _
    unfold State.headroom at hroom
    show 0 ≤ s.cached - ((s.jobs.map fun j => (job j).admission).sum : Int)
    omega
  | grant _ _ hfit => exact room_grant h hfit
  | @enroll j _ =>
    show 0 ≤ s.cached - ((s.enroll j).admissions : Int)
    rw [admissions_enroll h]
    exact hroom
  | @dismiss j _ =>
    have hle := admissions_dismiss h j
    unfold State.headroom at hroom
    show 0 ≤ s.cached - ((s.dismiss j).admissions : Int)
    omega
  | free hfree =>
    obtain ⟨a, front, rest, -, rfl⟩ := free_cases hfree
    exact hroom
  | released hreleased =>
    obtain ⟨a, front, rest, -, rfl⟩ := released_cases hreleased
    have hsum := admissions_modify h a.job fun job =>
      { job with committed := job.committed - commitment a.size }
    unfold State.headroom at hroom
    show 0 ≤ s.cached + (commitment a.size : Int) - ((s.modify a.job fun job =>
      { job with committed := job.committed - commitment a.size }).admissions : Int)
    by_cases hj : a.job ∈ s.jobs
    · simp only [if_pos hj] at hsum
      omega
    · simp only [if_neg hj] at hsum
      omega
  | flags | refuse | cancel | stop => exact hroom

theorem Move.room (hmove : Move s t) (h : Members s) (hsame : t.samples = s.samples)
    (hroom : 0 ≤ s.headroom) : 0 ≤ t.headroom := by
  cases hmove with
  | own hown => exact hown.room h hsame hroom
  | @resume front rest w callbacks stopped hwaiters hmonitor =>
    have hout : w.job ∉ s.jobs := fun hjob => (h.away w.job hjob).2.2 w (by simp [hwaiters]) rfl
    exact room_resume h hout hroom
  | _ => exact hroom

theorem Move.samples_le (hmove : Move s t) : s.samples ≤ t.samples := by
  cases hmove with
  | own hown =>
    cases hown with
    | sample => exact Nat.le_succ _
    | free hfree =>
      obtain ⟨a, front, rest, -, rfl⟩ := free_cases hfree
      exact le_refl _
    | released hreleased =>
      obtain ⟨a, front, rest, -, rfl⟩ := released_cases hreleased
      exact le_refl _
    | _ => exact le_refl _
  | _ => exact le_refl _

/-! ## Runs -/

/-- What a chain of moves keeps. -/
structure Kept (s t : State ι) : Prop where
  ledger : Ledger t
  members : Members t
  samples_le : s.samples ≤ t.samples
  room : t.samples = s.samples → 0 ≤ s.headroom → 0 ≤ t.headroom

theorem Kept.refl (hledger : Ledger s) (hmembers : Members s) : Kept s s :=
  ⟨hledger, hmembers, le_refl _, fun _ => id⟩

theorem Kept.moves {r : State ι} (h : Kept s t) (hmoves : Moves t r) : Kept s r := by
  induction hmoves with
  | refl => exact h
  | tail _ hmove ih =>
    have hle := hmove.samples_le
    have hbefore := ih.samples_le
    refine ⟨ih.ledger.move hmove, ih.members.move hmove, hbefore.trans hle, fun hsame hroom => ?_⟩
    exact hmove.room ih.members (by omega) (ih.room (by omega) hroom)

theorem Kept.steps {r : State ι} (h : Kept s t) (hsteps : (manager ι).Steps t r) : Kept s r :=
  hsteps.preserves (fun _ _ _ hs hstep => hs.moves (step_moves hstep)) h

theorem ledger_init : Ledger (manager ι).init := by
  constructor <;> simp [manager, State.all, owned, committedOf, State.live]

theorem members_init : Members (manager ι).init := by
  constructor <;> simp [manager, State.pending, Monitor.callbacks]

theorem kept_of_reachable (h : (manager ι).Reachable s) : Kept s s := by
  have hkept := (Kept.refl ledger_init members_init).steps h
  exact .refl hkept.ledger hkept.members

/-- After its last pass the monitor leaves nobody waiting, and nobody comes. -/
def Drained (s : State ι) : Prop :=
  ∀ callbacks, s.monitor = .calling callbacks true ∨ s.monitor = .returned →
    s.stopping = true ∧ s.waiters = []

theorem serveFrom_waiters {ws : List (Waiter ι)} :
    ∀ {qs : List (Option Int)} {stay : List (Waiter ι)} {callbacks : List (Callback ι)} {s t : State ι}
      {stopped : Bool}, s.serveFrom stopped stay callbacks ws qs = some t →
      (stopped = true → t.waiters = stay ∧ (s.stopping = true → t.stopping = true)) ∧
        ∃ after, t.monitor = .calling after stopped := by
  induction ws with
  | nil =>
    intro qs stay callbacks s t stopped h
    simp only [State.serveFrom, Option.some.injEq] at h
    subst h
    exact ⟨fun _ => ⟨rfl, id⟩, callbacks, rfl⟩
  | cons w ws ih =>
    intro qs stay callbacks s t stopped h
    cases qs with
    | nil => simp [State.serveFrom] at h
    | cons q qs =>
      rw [State.serveFrom] at h
      obtain ⟨r, hsample, h⟩ := Option.bind_eq_some_iff.1 h
      have hstop := (sample_owns hsample).kept.2.2
      cases stopped with
      | true =>
        rw [if_pos (.inl rfl)] at h
        obtain ⟨hdone, hmonitor⟩ := ih h
        obtain ⟨hwaiters, hkept⟩ := hdone rfl
        exact ⟨fun _ => ⟨hwaiters, fun hs => hkept (hstop hs)⟩, hmonitor⟩
      | false =>
        refine ⟨fun hfalse => by simp at hfalse, ?_⟩
        split at h
        · exact (ih h).2
        · split at h
          · exact (ih h).2
          · exact (ih h).2

theorem Drained.serve {first : Option Int} {rest : List (Option Int)}
    (h : s.serve first rest = some t) : Drained t := by
  unfold State.serve at h
  split at h
  · obtain ⟨s₁, hsample, h⟩ := Option.bind_eq_some_iff.1 h
    obtain ⟨hdone, after, hmonitor⟩ := serveFrom_waiters h
    intro callbacks hcalling
    rw [hmonitor] at hcalling
    rcases hcalling with hcalling | hcalling
    · obtain ⟨-, hstopped⟩ := Monitor.calling.inj hcalling
      obtain ⟨hwaiters, hkept⟩ := hdone hstopped
      exact ⟨hkept hstopped, hwaiters⟩
    · simp at hcalling
  · simp at h

theorem Drained.call (hdrained : Drained s) (h : s.call = some t) : Drained t := by
  unfold State.call at h
  split at h
  · next j resumed announced rest stopped hmonitor =>
    simp only [Option.some.injEq] at h
    subst h
    intro callbacks hcalling
    simp only [Monitor.calling.injEq, reduceCtorEq, or_false] at hcalling
    exact hdrained _ (.inl (by rw [hmonitor, hcalling.2]))
  · next c rest stopped _ hmonitor =>
    simp only [Option.some.injEq] at h
    subst h
    intro callbacks hcalling
    simp only [Monitor.calling.injEq, reduceCtorEq, or_false] at hcalling
    exact hdrained _ (.inl (by rw [hmonitor, hcalling.2]))
  · next stopped hmonitor =>
    simp only [Option.some.injEq] at h
    subst h
    intro callbacks hcalling
    cases stopped with
    | true => exact hdrained [] (.inl hmonitor)
    | false => simp at hcalling
  · simp at h

theorem Drained.step {a : Action ι} (hdrained : Drained s) (h : step s a = some t) : Drained t := by
  cases a with
  | serve first rest => exact .serve h
  | call => exact hdrained.call h
  | observe fresh first second third =>
    simp only [NativeMemory.step, State.observe] at h
    split at h
    · obtain ⟨s₁, hfirst, h⟩ := Option.bind_eq_some_iff.1 h
      obtain ⟨s₂, hsecond, h⟩ := Option.bind_eq_some_iff.1 h
      obtain ⟨r, hpressure, rfl⟩ := Option.map_eq_some_iff.1 h
      intro callbacks hcalling
      simp at hcalling
    · simp at h
  | park j notice =>
    simp only [NativeMemory.step, State.park] at h
    split at h
    · simp only [Option.some.injEq] at h
      subst h
      intro callbacks hcalling
      split_ifs at hcalling ⊢ with hstop
      · exact hdrained callbacks hcalling
      · exact absurd (hdrained callbacks hcalling).1 hstop
    · simp at h
  | _ =>
    obtain ⟨hmonitor, hwaiters, hstop⟩ := (step_owns rfl h).kept
    intro callbacks hcalling
    rw [hmonitor] at hcalling
    obtain ⟨hstopping, hnone⟩ := hdrained callbacks hcalling
    exact ⟨hstop hstopping, hwaiters.trans hnone⟩

/-- Every call of `park` has one answer, by now or later: it is later exactly for a job that is parked or
refused, and then one answer is on its way; a job is refused only if it is cancelled or the manager is
stopped; and when the monitor has returned, nobody is left waiting. -/
theorem parked_answered_once (h : (manager ι).Reachable s) :
    (∀ j, s.parks.count j = (s.answers.map Prod.fst).count j +
        if s.caller j = .parked ∨ s.caller j = .refused then 1 else 0) ∧
      (∀ j, s.pending j = if s.caller j = .parked then 1 else 0) ∧
      (∀ j, (j, false) ∈ s.answers → s.cancelRequested j = true ∨ s.stopping = true) ∧
      (s.monitor = .returned → ∀ j, s.caller j ≠ .parked) := by
  have hmembers := (kept_of_reachable h).members
  have hdrained : Drained s := by
    refine h.invariant (P := Drained) ?_ fun s a t hs hstep => hs.step hstep
    intro callbacks hcalling
    simp [manager] at hcalling
  refine ⟨hmembers.parks, hmembers.pending, hmembers.answers, fun hreturned j hparked => ?_⟩
  have hone := hmembers.pending j
  rw [if_pos hparked, State.pending, (hdrained [] (.inr hreturned)).2, hreturned] at hone
  simp [Monitor.callbacks] at hone

end

/-! ### One job -/

/-- It allocates four megabytes, and fails for another time. -/
def oneAllocation : List (Action (Fin 1)) :=
  [.begin 0 false, .allocate 0 quantum false (some (2 ^ 30)) none none (.granted 65536),
    .allocate 0 (2 ^ 31) false none (some (2 ^ 29)) none (.granted 131072)]

/-- It is parked and resumed. -/
def oneWait : List (Action (Fin 1)) :=
  [.begin 0 false, .retry 0 (some 100), .finish 0, .park 0 false,
    .observe false (some (2 ^ 30)) none none, .serve none [none], .call]

theorem parked_answered_once_one :
    ∃ s, (manager (Fin 1)).exec (manager (Fin 1)).init oneWait = some s ∧
      (∀ j, s.parks.count j = (s.answers.map Prod.fst).count j +
        if s.caller j = .parked ∨ s.caller j = .refused then 1 else 0) ∧
      (∀ j, s.pending j = if s.caller j = .parked then 1 else 0) ∧
      (∀ j, (j, false) ∈ s.answers → s.cancelRequested j = true ∨ s.stopping = true) ∧
      (s.monitor = .returned → ∀ j, s.caller j ≠ .parked) :=
  have hrun : (manager (Fin 1)).exec (manager (Fin 1)).init oneWait = some _ := rfl
  ⟨_, hrun, parked_answered_once (.of_exec hrun)⟩

end Sunpack.NativeMemory
