import Sunpack.PasswordLoop.Safety

/-!
# What is published

An attempt that nothing disturbs comes to its end and publishes a result; and whatever is published is what
the candidates are to end with.
-/

namespace Sunpack.PasswordLoop

open Sunpack.Lib

variable {c : Candidates} {j j₁ : Job}

/-! ## Undisturbed attempts -/

/-- No flag is set. -/
structure Calm (j : Job) : Prop where
  revoked : j.revoked = false
  denied : j.denied = false
  cancel : j.cancel = false

theorem Calm.notMistaken (h : Calm j) (a : Action) : NotMistaken j a := by
  intro _ hrevoked
  rw [h.revoked] at hrevoked
  cases hrevoked

/-- A result is published in the end. -/
def Publishes (c : Candidates) (j : Job) : Prop :=
  ∃ j' r, ((jobs c).restrict NotMistaken).Steps j j' ∧ j'.phase = .done (.published r)

theorem Calm.publishes (h : Calm j) {a : Action} (hstep : j.step c a = some j₁)
    (hrest : Publishes c j₁) : Publishes c j := by
  obtain ⟨j', r, hsteps, hphase⟩ := hrest
  have hone : ((jobs c).restrict NotMistaken).Steps j j₁ :=
    .tail a .refl (Machine.restrict_step.2 ⟨h.notMistaken a, hstep⟩)
  exact ⟨j', r, hone.trans hsteps, hphase⟩

theorem Calm.goto (h : Calm j) (phase : Phase) : Calm (j.goto phase) :=
  ⟨h.revoked, h.denied, h.cancel⟩

theorem publishes_finished (h : Calm j) {r : ExtractArchiveResult}
    (hphase : j.phase = .finished r) (hr : r.failureKind ≠ "resource_unavailable") :
    Publishes c j := by
  have hfinish : j.step c .next = some (j.goto (.closing r)) := by
    simp [Job.step, Job.next, hphase, Job.finish, hr, h.denied]
  have hclose : (j.goto (.closing r)).step c .next =
      some ((j.goto (.closing r)).goto (.publishing r)) := by
    simp [Job.step, Job.next, Job.goto, h.revoked]
  have hpublish : ((j.goto (.closing r)).goto (.publishing r)).step c .next =
      some (((j.goto (.closing r)).goto (.publishing r)).goto (.done (.published r))) := by
    simp [Job.step, Job.next, Job.goto, h.cancel]
  refine h.publishes hfinish ((h.goto _).publishes hclose (((h.goto _).goto _).publishes hpublish ?_))
  exact ⟨_, r, .refl, rfl⟩

section Loop

variable (hmemory : ∀ k < c.count, (c.judged k).failureKind ≠ "resource_unavailable")
include hmemory

/-- A rejected candidate is discarded, and the next one is tried. -/
theorem publishes_deciding (h : Calm j) {index : Nat} {r : ExtractArchiveResult}
    (hphase : j.phase = .deciding index r) (hlt : index < c.count)
    (hr : r.direct c.count index = c.judged index)
    (hrest : ∀ j₁ : Job, ∀ r₁, Calm j₁ → j₁.phase = .looping (index + 1) r₁ →
      j₁.candidateDiscardPending = false → Publishes c j₁) : Publishes c j := by
  have hnext : j.step c .next = some (j.settle c index (c.judged index)) := by
    simp [Job.step, Job.next, hphase, hr]
  apply h.publishes hnext
  unfold Job.settle
  split_ifs
  · exact publishes_finished (h.goto _) rfl (hmemory index hlt)
  · have hcalm : Calm (j.reject index (c.judged index)) := ⟨h.revoked, h.denied, h.cancel⟩
    have hloop : (j.reject index (c.judged index)).step c .next =
        some ((j.reject index (c.judged index)).goto (.discarding index
          { c.judged index with passwordCandidatesAllRejected := false })) := rfl
    refine hcalm.publishes hloop ?_
    refine (hcalm.goto _).publishes (a := .discarded) rfl (hrest _ _ ?_ rfl rfl)
    exact ⟨h.revoked, h.denied, h.cancel⟩

theorem publishes_extracted (h : Calm j) {index : Nat}
    (hphase : j.phase = .readCancel index (c.extracted index)) (hlt : index < c.count)
    (hrest : ∀ j₁ : Job, ∀ r₁, Calm j₁ → j₁.phase = .looping (index + 1) r₁ →
      j₁.candidateDiscardPending = false → Publishes c j₁) : Publishes c j := by
  have hdecide : ∀ (j₁ : Job) (r : ExtractArchiveResult), Calm j₁ →
      r.direct c.count index = c.judged index → Publishes c (j₁.goto (.deciding index r)) :=
    fun j₁ r hcalm hr => publishes_deciding hmemory (hcalm.goto _) rfl hlt hr hrest
  cases hambiguous : (c.extracted index).ambiguous with
  | false =>
    have hnext : j.step c .next = some (j.goto (.deciding index (c.extracted index))) := by
      simp [Job.step, Job.next, hphase, hambiguous]
    refine h.publishes hnext (hdecide j _ h ?_)
    simp [Candidates.judged, hambiguous]
  | true =>
    have hnext : j.step c .next = some (j.goto (.readRevoked index (c.extracted index))) := by
      simp [Job.step, Job.next, hphase, hambiguous, h.cancel]
    refine h.publishes hnext ?_
    have hcalm := h.goto (.readRevoked index (c.extracted index))
    have hrevoked : (j.goto (.readRevoked index (c.extracted index))).step c .next =
        some ((j.goto (.readRevoked index (c.extracted index))).goto
          (.readDenied index (c.extracted index))) := by
      simp [Job.step, Job.next, Job.goto, h.revoked]
    refine hcalm.publishes hrevoked ?_
    generalize j.goto (.readRevoked index (c.extracted index)) = j₂ at hcalm
    cases hitems : (c.extracted index).extractionRejectsPassword with
    | true =>
      have hdenied : (j₂.goto (.readDenied index (c.extracted index))).step c .next =
          some ((j₂.goto (.readDenied index (c.extracted index))).goto
            (.deciding index (c.extracted index).rejected)) := by
        simp [Job.step, Job.next, Job.goto, hcalm.denied, hitems]
      refine (hcalm.goto _).publishes hdenied (hdecide _ _ (hcalm.goto _) ?_)
      simp [Candidates.judged, hambiguous, hitems]
    | false =>
      have hdenied : (j₂.goto (.readDenied index (c.extracted index))).step c .next =
          some ((j₂.goto (.readDenied index (c.extracted index))).goto
            (.probing index (c.extracted index))) := by
        simp [Job.step, Job.next, Job.goto, hcalm.denied, hitems]
      refine (hcalm.goto _).publishes hdenied ?_
      refine ((hcalm.goto _).goto _).publishes (a := .probed) rfl
        (hdecide _ _ ((hcalm.goto _).goto _) ?_)
      simp [Candidates.judged, hambiguous, hitems]

theorem publishes_looping (n : Nat) {index : Nat} {r : ExtractArchiveResult}
    (hn : index + n = c.count) (h : Calm j) (hphase : j.phase = .looping index r)
    (hpending : j.candidateDiscardPending = false) : Publishes c j := by
  induction n generalizing j index r with
  | zero =>
    have hkind : (candidateFailure c.count).failureKind ≠ "resource_unavailable" := by
      show "wrong_password" ≠ "resource_unavailable"
      decide
    have hnext : j.step c .next = some (j.goto (.finished (candidateFailure c.count))) := by
      simp [Job.step, Job.next, hphase, Job.loop, hpending, ← hn]
    exact h.publishes hnext (publishes_finished (h.goto _) rfl hkind)
  | succ n ih =>
    have hlt : index < c.count := by omega
    have hnext : j.step c .next = some (j.goto (.extracting index)) := by
      simp [Job.step, Job.next, hphase, Job.loop, hpending, hlt, h.cancel]
    refine h.publishes hnext ((h.goto _).publishes (a := .extracted) rfl ?_)
    refine publishes_extracted hmemory ⟨h.revoked, h.denied, h.cancel⟩ rfl hlt ?_
    intro j₁ r₁ hcalm hphase₁ hpending₁
    exact ih (by omega) hcalm hphase₁ hpending₁

/-- The job that gets memory again, and keeps it, publishes a result. -/
theorem publishes_parked (hinv : Inv c j) (hphase : j.phase = .parked)
    (hjob : j.jobCancelled = false) : Publishes c j := by
  have hle := hinv.le_count
  unfold Job.rejectedCount at hle
  have hresume : j.step c .resume =
      some { j with phase := .started, revoked := false, denied := false, cancel := false } := by
    simp [Job.step, hphase, hjob]
  generalize hj₁ : ({ j with
    phase := .started, revoked := false, denied := false, cancel := false } : Job) = j₁ at hresume
  have hcalm : Calm j₁ := by
    subst hj₁
    exact ⟨rfl, rfl, rfl⟩
  have hindex : j₁.candidateIndex = j.candidateIndex := by rw [← hj₁]
  have hpending : j₁.candidateDiscardPending = j.candidateDiscardPending := by rw [← hj₁]
  have hstart : j₁.step c .next = some (j₁.goto .admitted) := by
    have hphase₁ : j₁.phase = .started := by rw [← hj₁]
    simp [Job.step, Job.next, hphase₁, hcalm.revoked]
  have hadmit : (j₁.goto .admitted).step c .next =
      some ((j₁.goto .admitted).goto (.looping j.candidateIndex {})) := by
    simp [Job.step, Job.next, Job.goto, hcalm.cancel, hindex]
  have hloop : Publishes c ((j₁.goto .admitted).goto (.looping j.candidateIndex {})) := by
    have hcalm₂ := (hcalm.goto .admitted).goto (.looping j.candidateIndex {})
    cases hdiscard : j.candidateDiscardPending with
    | false =>
      refine publishes_looping hmemory (c.count - j.candidateIndex) (by omega) hcalm₂ rfl ?_
      exact hpending.trans hdiscard
    | true =>
      rw [hdiscard] at hle hpending
      have hnext : ((j₁.goto .admitted).goto (.looping j.candidateIndex {})).step c .next =
          some (((j₁.goto .admitted).goto (.looping j.candidateIndex {})).goto
            (.discarding j.candidateIndex {})) := by
        simp [Job.step, Job.next, Job.goto, Job.loop, hpending]
      refine hcalm₂.publishes hnext ((hcalm₂.goto _).publishes (a := .discarded) rfl ?_)
      refine publishes_looping hmemory (c.count - (j.candidateIndex + 1)) ?_
        ⟨hcalm.revoked, hcalm.denied, hcalm.cancel⟩ rfl rfl
      have hone : j.candidateIndex + 1 ≤ c.count := hle
      omega
  have hfirst : ((jobs c).restrict NotMistaken).Steps j j₁ := by
    refine .tail .resume .refl (Machine.restrict_step.2 ⟨?_, hresume⟩)
    rintro (hadmitted | ⟨r, hpublishing⟩)
    · rw [hphase] at hadmitted
      cases hadmitted
    · rw [hphase] at hpublishing
      cases hpublishing
  obtain ⟨j', r, hsteps, hdone⟩ := hcalm.publishes hstart ((hcalm.goto _).publishes hadmit hloop)
  exact ⟨j', r, hfirst.trans hsteps, hdone⟩

end Loop

/-! ## Whole runs -/

/-- A candidate is rejected by a step that finds the memory not revoked. -/
theorem rejected_step {a : Action} (hinv : Inv c j) (hstep : j.step c a = some j₁) :
    j₁.rejected = j.rejected ∨
      j₁.rejected = j.rejected ++ [j.rejected.length] ∧ j.revoked = false := by
  have hfits := hinv.fits
  unfold Job.step at hstep
  cases a with
  | next =>
    unfold Job.next at hstep
    cases hphase : j.phase <;> simp only [hphase, reduceCtorEq, Option.some.injEq] at hstep
    case deciding index r =>
      rw [hphase] at hfits
      have hcount := hfits.1.rejectedCount_eq
      subst hstep
      unfold Job.settle
      split_ifs with hends
      · exact .inl rfl
      · simp only [Bool.or_eq_true, not_or, Bool.not_eq_true] at hends
        right
        constructor
        · rw [hinv.rejected, List.length_range, hcount]
          unfold Job.reject
          rw [hinv.rejected, hcount]
        · cases hrevoked : j.revoked with
          | false => rfl
          | true =>
            rw [hinv.cancel_of_revoked hrevoked] at hends
            cases hends.2
    case looping index r =>
      subst hstep
      unfold Job.loop
      split_ifs <;> exact .inl rfl
    case finished r =>
      subst hstep
      unfold Job.finish
      split_ifs <;> exact .inl rfl
    all_goals
      subst hstep
      split_ifs <;> exact .inl rfl
  | revoke =>
    simp only [Option.ite_none_right_eq_some, Option.some.injEq] at hstep
    obtain ⟨-, rfl⟩ := hstep
    exact .inl rfl
  | deny =>
    simp only [Option.ite_none_right_eq_some, Option.some.injEq] at hstep
    obtain ⟨-, rfl⟩ := hstep
    exact .inl rfl
  | cancelJob =>
    obtain rfl := Option.some.inj hstep
    exact .inl rfl
  | badAlloc =>
    simp only [Option.ite_none_right_eq_some, Option.some.injEq] at hstep
    obtain ⟨-, rfl⟩ := hstep
    exact .inl rfl
  | resume | extracted | probed | discarded =>
    cases hphase : j.phase <;> simp only [hphase, reduceCtorEq, Option.some.injEq] at hstep
    subst hstep
    exact .inl rfl
  | interrupted _ | probeInterrupted _ | discardFailed _ _ =>
    cases hphase : j.phase <;> simp only [hphase, reduceCtorEq] at hstep
    simp only [Option.ite_none_right_eq_some, Option.some.injEq] at hstep
    obtain ⟨-, rfl⟩ := hstep
    exact .inl rfl

/-- As long as no revocation is taken for a cancelled job: candidates are rejected in their order, by what
nothing interrupted; a candidate starts with no output of another one; the job ends with what the
candidates are to end with, or because a cleanup failed or it was cancelled; and it does end, once an
attempt keeps its memory. -/
theorem candidateLoop_spec {c : Candidates} {j : Job}
    (h : ((jobs c).restrict NotMistaken).Reachable j) :
    j.rejected = List.range j.rejected.length ∧ j.rejected.length ≤ c.count ∧
    (∀ i ∈ j.rejected, c.rejects i = true) ∧
    (∀ a j', (jobs c).step j a = some j' → j'.rejected = j.rejected ∨
      j'.rejected = j.rejected ++ [j.rejected.length] ∧ j.revoked = false) ∧
    (∀ index, j.phase = .extracting index → index = j.rejected.length ∧
      (∀ i ∈ j.output, i = index) ∧ ∀ i ∈ j.receipts, i = index) ∧
    (∀ r, j.phase = .done (.published r) →
      c.Ends r ∨ j.cleanupFailed = true ∧ ∃ message, r = cleanupFailure message) ∧
    (j.phase = .done .cancelled → j.jobCancelled = true) ∧
    (j.phase = .parked → j.jobCancelled = false →
      (∀ k < c.count, (c.judged k).failureKind ≠ "resource_unavailable") →
      ∃ j' r, ((jobs c).restrict NotMistaken).Steps j j' ∧ j'.phase = .done (.published r)) := by
  have hinv := inv_of_reachable h
  have hlength : j.rejected.length = j.rejectedCount := by
    rw [hinv.rejected, List.length_range]
  have hfits := hinv.fits
  refine ⟨?_, ?_, fun i hi => ?_, fun a j' hstep => rejected_step hinv hstep, ?_, ?_, ?_, ?_⟩
  · rw [hlength]
    exact hinv.rejected
  · rw [hlength]
    exact hinv.le_count
  · rw [hinv.rejected, List.mem_range] at hi
    exact hinv.rejects i hi
  · intro index hphase
    rw [hphase] at hfits
    have hcurrent : Current c j index := hfits
    rw [hlength, hcurrent.rejectedCount_eq, hcurrent.index_eq]
    exact ⟨rfl, hinv.output, hinv.receipts⟩
  · intro r hphase
    rw [hphase] at hfits
    exact hfits
  · intro hphase
    rw [hphase] at hfits
    exact hfits
  · intro hphase hjob hmemory
    exact publishes_parked hmemory hinv hphase hjob

/-! ## Two candidates -/

/-- The extraction succeeds. -/
def success : ExtractArchiveResult where
  status := .ok
  backendAvailable := true
  commandOk := true
  encrypted := true

/-- The decoder says that the password is wrong. -/
def wrong : ExtractArchiveResult where
  status := .wrongPassword
  backendAvailable := true
  encrypted := true
  wrongPassword := true
  passwordRejected := true
  operationResult := kOpWrongPassword
  failureStage := "item_extract"
  failureKind := "encrypted_or_wrong_password"

/-- The first password is wrong, the second one is right. -/
def twoCandidates : Candidates where
  count := 2
  extracted k := if k = 0 then wrong else success
  probed _ := false
  undecided k := by
    split_ifs <;> rfl
  coherent k := by
    split_ifs
    · exact fun _ => ⟨rfl, rfl⟩
    · intro hflag
      exact absurd hflag (by decide)

/-- The job ends with the second candidate. -/
theorem candidateLoop_spec_two :
    ∃ j r, ((jobs twoCandidates).restrict NotMistaken).Reachable j ∧
      j.phase = .done (.published r) ∧
      (twoCandidates.Ends r ∨ j.cleanupFailed = true ∧ ∃ message, r = cleanupFailure message) := by
  have hinit : ((jobs twoCandidates).restrict NotMistaken).Reachable Job.init := .refl
  obtain ⟨-, -, -, -, -, -, -, hends⟩ := candidateLoop_spec hinit
  obtain ⟨j, r, hsteps, hphase⟩ := hends rfl rfl (by decide)
  obtain ⟨-, -, -, -, -, hpublished, -, -⟩ := candidateLoop_spec (hinit.trans hsteps)
  exact ⟨j, r, hinit.trans hsteps, hphase, hpublished r hphase⟩

/-- The second candidate succeeds, then the memory is revoked: the job is taken for cancelled. -/
theorem candidateLoop_mistaken :
    ∃ j, (jobs twoCandidates).Reachable j ∧ j.phase = .done .cancelled ∧
      j.jobCancelled = false ∧ j.cleanupFailed = false ∧ (twoCandidates.extracted 1).ok = true ∧
      twoCandidates.rejects 0 = true :=
  ⟨_, @Machine.Reachable.of_exec _ _ (jobs twoCandidates) _
    [.resume, .next, .next, .next, .extracted, .next, .next, .next, .discarded, .next, .extracted,
      .next, .next, .revoke, .next, .next, .next] rfl, rfl, rfl, rfl, rfl, rfl⟩

end Sunpack.PasswordLoop
