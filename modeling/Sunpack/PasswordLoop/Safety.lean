import Sunpack.PasswordLoop.Loop

/-!
# What the loop keeps

The rejected candidates are the first ones, each by an extraction or a probe that nothing interrupted, and
the output is that of one candidate. What a phase has in hand is either settled by the candidates alone, or
a flag is set that keeps it from being published.
-/

namespace Sunpack.PasswordLoop

open Sunpack.Lib

variable {c : Candidates} {j j' : Job}

/-! ## Phases -/

/-- The number of candidates that are rejected. -/
def Job.rejectedCount (j : Job) : Nat := j.candidateIndex + j.candidateDiscardPending.toNat

/-- The candidate that is tried. -/
structure Current (c : Candidates) (j : Job) (index : Nat) : Prop where
  index_eq : index = j.candidateIndex
  pending : j.candidateDiscardPending = false
  lt : index < c.count

/-- A result that was not interrupted, or `cancel` is set. -/
def Evidence (c : Candidates) (j : Job) (index : Nat) (r : ExtractArchiveResult) : Prop :=
  r = c.extracted index ∨ r.ok = false ∧ j.cancel = true

/-- A result that the job may end with. -/
def Settled (c : Candidates) (j : Job) (r : ExtractArchiveResult) : Prop :=
  c.Ends r ∨ j.cleanupFailed = true ∧ ∃ message, r = cleanupFailure message

/-- The result to decide on: that of the candidate, or a flag is set. -/
def Decided (c : Candidates) (j : Job) (index : Nat) (r : ExtractArchiveResult) : Prop :=
  r.direct c.count index = c.judged index ∨ r.ok = false ∧ j.cancel = true ∨
    r = c.extracted index ∧ r.ok = false ∧ j.denied = true

/-- What holds in a phase. -/
def Fits (c : Candidates) (j : Job) : Phase → Prop
  | .parked | .started | .admitted => True
  | .looping index r => index = j.candidateIndex ∧ r.ok = false
  | .discarding index r =>
    index = j.candidateIndex ∧ r.ok = false ∧ j.candidateDiscardPending = true
  | .extracting index => Current c j index
  | .readCancel index r => Current c j index ∧ Evidence c j index r
  | .readRevoked index r => Current c j index ∧ Evidence c j index r ∧ r.ambiguous = true
  | .readDenied index r => Current c j index ∧ Evidence c j index r ∧ r.ambiguous = true
  | .probing index r =>
    Current c j index ∧ Evidence c j index r ∧ r.ambiguous = true ∧
      r.extractionRejectsPassword = false
  | .deciding index r => Current c j index ∧ Decided c j index r
  | .finished r => Settled c j r ∨ r.ok = false ∧ (j.denied = true ∨ j.cancel = true)
  | .closing r => Settled c j r ∨ r.ok = false ∧ j.cancel = true
  | .publishing r => Settled c j r ∨ j.cancel = true
  | .done (.published r) => Settled c j r
  | .done .cancelled => j.jobCancelled = true

/-- Flags may be set in any phase. -/
structure MoreFlags (j j' : Job) : Prop where
  index_eq : j'.candidateIndex = j.candidateIndex
  pending : j'.candidateDiscardPending = j.candidateDiscardPending
  cancel : j.cancel = true → j'.cancel = true
  denied : j.denied = true → j'.denied = true
  job : j.jobCancelled = true → j'.jobCancelled = true
  cleanup : j'.cleanupFailed = j.cleanupFailed

theorem Current.mono {index : Nat} (h : Current c j index) (hmore : MoreFlags j j') :
    Current c j' index :=
  ⟨h.index_eq.trans hmore.index_eq.symm, hmore.pending.trans h.pending, h.lt⟩

theorem Evidence.mono {index : Nat} {r : ExtractArchiveResult} (h : Evidence c j index r)
    (hmore : MoreFlags j j') : Evidence c j' index r :=
  h.imp id fun hcut => ⟨hcut.1, hmore.cancel hcut.2⟩

theorem Settled.mono {r : ExtractArchiveResult} (h : Settled c j r) (hmore : MoreFlags j j') :
    Settled c j' r :=
  h.imp id fun hcleanup => ⟨hmore.cleanup.trans hcleanup.1, hcleanup.2⟩

theorem Fits.mono {phase : Phase} (h : Fits c j phase) (hmore : MoreFlags j j') :
    Fits c j' phase := by
  cases phase with
  | parked => trivial
  | started => trivial
  | admitted => trivial
  | looping index r => exact ⟨h.1.trans hmore.index_eq.symm, h.2⟩
  | discarding index r =>
    exact ⟨h.1.trans hmore.index_eq.symm, h.2.1, hmore.pending.trans h.2.2⟩
  | extracting index => exact Current.mono h hmore
  | readCancel index r => exact ⟨h.1.mono hmore, h.2.mono hmore⟩
  | readRevoked index r => exact ⟨h.1.mono hmore, h.2.1.mono hmore, h.2.2⟩
  | readDenied index r => exact ⟨h.1.mono hmore, h.2.1.mono hmore, h.2.2⟩
  | probing index r => exact ⟨h.1.mono hmore, h.2.1.mono hmore, h.2.2⟩
  | deciding index r =>
    refine ⟨h.1.mono hmore, ?_⟩
    rcases h.2 with hjudged | ⟨hok, hcancel⟩ | ⟨hr, hok, hdenied⟩
    · exact .inl hjudged
    · exact .inr (.inl ⟨hok, hmore.cancel hcancel⟩)
    · exact .inr (.inr ⟨hr, hok, hmore.denied hdenied⟩)
  | finished r =>
    rcases h with hsettled | ⟨hok, hdenied | hcancel⟩
    · exact .inl (hsettled.mono hmore)
    · exact .inr ⟨hok, .inl (hmore.denied hdenied)⟩
    · exact .inr ⟨hok, .inr (hmore.cancel hcancel)⟩
  | closing r =>
    rcases h with hsettled | ⟨hok, hcancel⟩
    · exact .inl (hsettled.mono hmore)
    · exact .inr ⟨hok, hmore.cancel hcancel⟩
  | publishing r => exact h.imp (fun hsettled => hsettled.mono hmore) hmore.cancel
  | done outcome =>
    cases outcome with
    | published r => exact Settled.mono h hmore
    | cancelled => exact hmore.job h

/-! ## The invariant -/

structure Inv (c : Candidates) (j : Job) : Prop where
  le_count : j.rejectedCount ≤ c.count
  rejected : j.rejected = List.range j.rejectedCount
  rejects : ∀ i < j.rejectedCount, c.rejects i = true
  single : c.count = 1 → j.rejectedCount = 0
  cancel_of_revoked : j.revoked = true → j.cancel = true
  of_cancel : j.cancel = true → j.revoked = true ∨ j.jobCancelled = true
  output : ∀ i ∈ j.output, i = j.candidateIndex
  receipts : ∀ i ∈ j.receipts, i = j.candidateIndex
  fits : Fits c j j.phase

theorem inv_init (c : Candidates) : Inv c Job.init where
  le_count := Nat.zero_le _
  rejected := rfl
  rejects i hi := absurd hi (Nat.not_lt_zero i)
  single _ := rfl
  cancel_of_revoked h := h
  of_cancel h := .inl h
  output _ hi := absurd hi List.not_mem_nil
  receipts _ hi := absurd hi List.not_mem_nil
  fits := trivial

theorem Inv.goto (h : Inv c j) {phase : Phase} (hfits : Fits c j phase) : Inv c (j.goto phase) :=
  ⟨h.le_count, h.rejected, h.rejects, h.single, h.cancel_of_revoked, h.of_cancel, h.output,
    h.receipts, hfits.mono ⟨rfl, rfl, id, id, id, rfl⟩⟩

theorem moreFlags_revoke (j : Job) : MoreFlags j j.revoke :=
  ⟨rfl, rfl, fun _ => rfl, id, id, rfl⟩

theorem Inv.revoke (h : Inv c j) : Inv c j.revoke :=
  ⟨h.le_count, h.rejected, h.rejects, h.single, fun _ => rfl, fun _ => .inl rfl, h.output,
    h.receipts, h.fits.mono (moreFlags_revoke j)⟩

/-- A current candidate comes behind the rejected ones. -/
theorem Current.rejectedCount_eq {index : Nat} (h : Current c j index) :
    j.rejectedCount = index := by
  unfold Job.rejectedCount
  rw [h.pending, ← h.index_eq]
  rfl

/-! ## Steps of the loop -/

theorem Inv.loop (h : Inv c j) {index : Nat} {r : ExtractArchiveResult}
    (hindex : index = j.candidateIndex) (hr : r.ok = false) : Inv c (j.loop c index r) := by
  unfold Job.loop
  split_ifs with hpending hlt hcancel
  · exact h.goto ⟨hindex, hr, hpending⟩
  · exact h.goto (.inr ⟨hr, .inr hcancel⟩)
  · exact h.goto ⟨hindex, Bool.eq_false_iff.2 hpending, hlt⟩
  · refine h.goto (.inl (.inl (.wrong ?_ rfl rfl rfl)))
    intro i hi
    apply h.rejects
    unfold Job.rejectedCount
    omega

theorem Inv.reject (h : Inv c j) {index : Nat} {r : ExtractArchiveResult}
    (hcurrent : Current c j index) (hr : r.ok = false) (hcount : c.count ≠ 1)
    (hrejects : c.rejects index = true) : Inv c (j.reject index r) := by
  have hbefore := hcurrent.rejectedCount_eq
  have hafter : (j.reject index r).rejectedCount = index + 1 := by
    unfold Job.rejectedCount
    rw [hcurrent.index_eq]
    rfl
  refine ⟨?_, ?_, ?_, fun hone => absurd hone hcount, h.cancel_of_revoked, h.of_cancel, h.output,
    h.receipts, hcurrent.index_eq, hr⟩
  · rw [hafter]
    exact hcurrent.lt
  · rw [hafter, List.range_succ, ← hbefore, ← h.rejected, hbefore]
    rfl
  · intro i hi
    rw [hafter] at hi
    rcases Nat.lt_succ_iff_lt_or_eq.1 hi with hlt | rfl
    · exact h.rejects i (by omega)
    · exact hrejects

/-- The verdict on a candidate: what it is without any interruption, unless a flag is set. -/
theorem Inv.settle (h : Inv c j) {index : Nat} {r : ExtractArchiveResult}
    (hcurrent : Current c j index) (hdecided : Decided c j index r) :
    Inv c (j.settle c index (r.direct c.count index)) := by
  have hbefore : ∀ i < index, c.rejects i = true := by
    intro i hi
    apply h.rejects
    rw [hcurrent.rejectedCount_eq]
    exact hi
  unfold Job.settle
  split_ifs with hends
  · apply h.goto
    rcases hdecided with hjudged | ⟨hok, hcancel⟩ | ⟨-, hok, hdenied⟩
    · rw [hjudged]
      cases hrejects : c.rejects index with
      | false => exact .inl (.inl (ends_judged hcurrent.lt hbefore hrejects))
      | true =>
        have hverdict := hrejects
        unfold Candidates.rejects at hverdict
        rw [Bool.and_eq_true, Bool.not_eq_true'] at hverdict
        rw [hjudged, hverdict.1, hverdict.2] at hends
        simp only [Bool.false_or, Bool.not_true, Bool.or_eq_true, beq_iff_eq] at hends
        rcases hends with hone | hcancel
        · obtain ⟨hstatus, hwrong, hmatched⟩ := wrong_of_rejects hrejects
          refine .inl (.inl (.wrong (fun i hi => ?_) hstatus hwrong hmatched))
          have hlt := hcurrent.lt
          have hi : i = index := by omega
          rw [hi]
          exact hrejects
        · exact .inr ⟨hverdict.1, .inr hcancel⟩
    · exact .inr ⟨hok, .inr hcancel⟩
    · exact .inr ⟨hok, .inl hdenied⟩
  · simp only [Bool.or_eq_true, Bool.not_eq_true', beq_iff_eq, not_or, Bool.not_eq_true,
      Bool.not_eq_false] at hends
    obtain ⟨⟨⟨hok, hall⟩, hcount⟩, hcancel⟩ := hends
    refine h.reject hcurrent hok hcount ?_
    rcases hdecided with hjudged | ⟨-, hset⟩ | ⟨rfl, -, -⟩
    · unfold Candidates.rejects
      rw [← hjudged, hok, hall]
      rfl
    · rw [hset] at hcancel
      cases hcancel
    · exact rejects_of_extracted hok hall

theorem Inv.finish (h : Inv c j) {r : ExtractArchiveResult}
    (hr : Fits c j (.finished r)) : Inv c (j.finish r) := by
  unfold Job.finish
  split_ifs with hretry
  · refine h.revoke.goto ?_
    rcases hr with hsettled | ⟨hok, -⟩
    · exact .inl (hsettled.mono (moreFlags_revoke j))
    · exact .inr ⟨hok, rfl⟩
  · refine h.goto ?_
    rcases hr with hsettled | ⟨hok, hdenied | hcancel⟩
    · exact .inl hsettled
    · refine .inr ⟨hok, h.cancel_of_revoked ?_⟩
      rw [hdenied, hok] at hretry
      simpa using hretry
    · exact .inr ⟨hok, hcancel⟩

theorem Inv.extract (h : Inv c j) {index : Nat} {r : ExtractArchiveResult}
    (hcurrent : Current c j index) (hr : Evidence c j index r) : Inv c (j.extract index r) := by
  refine ⟨h.le_count, h.rejected, h.rejects, h.single, h.cancel_of_revoked, h.of_cancel, ?_, ?_,
    ⟨hcurrent.index_eq, hcurrent.pending, hcurrent.lt⟩, hr⟩
  · intro i hi
    rcases List.mem_cons.1 hi with rfl | hi
    · exact hcurrent.index_eq
    · exact h.output i hi
  · intro i hi
    rcases List.mem_cons.1 hi with rfl | hi
    · exact hcurrent.index_eq
    · exact h.receipts i hi

/-! ## Verdicts -/

theorem decided_of_not_ambiguous {index : Nat} {r : ExtractArchiveResult}
    (hr : Evidence c j index r) (hambiguous : r.ambiguous = false) : Decided c j index r := by
  rcases hr with rfl | hcut
  · left
    unfold Candidates.judged
    rw [hambiguous, Bool.false_and, if_neg Bool.false_ne_true]
  · exact .inr (.inl hcut)

theorem decided_of_rejected {index : Nat} {r : ExtractArchiveResult} (hr : Evidence c j index r)
    (hambiguous : r.ambiguous = true)
    (hrejects : (r.extractionRejectsPassword || c.probed index) = true) :
    Decided c j index r.rejected := by
  rcases hr with rfl | ⟨-, hcancel⟩
  · left
    unfold Candidates.judged
    rw [hambiguous, hrejects, Bool.true_and, if_pos rfl]
  · exact .inr (.inl ⟨rfl, hcancel⟩)

theorem decided_of_not_rejected {index : Nat} {r : ExtractArchiveResult}
    (hr : Evidence c j index r)
    (hrejects : (r.extractionRejectsPassword || c.probed index) = false) :
    Decided c j index r := by
  rcases hr with rfl | hcut
  · left
    unfold Candidates.judged
    rw [hrejects, Bool.and_false, if_neg Bool.false_ne_true]
  · exact .inr (.inl hcut)

/-! ## Steps -/

/-- The steps without a choice. -/
theorem Inv.next (h : Inv c j) (hgood : NotMistaken j .next) (hstep : j.next c = some j') :
    Inv c j' := by
  have hfits := h.fits
  have hjob : (j.phase = .admitted ∨ ∃ r, j.phase = .publishing r) → j.cancel = true →
      j.jobCancelled = true := by
    intro hphase hcancel
    rcases h.of_cancel hcancel with hrevoked | hjob
    · exact hgood hphase hrevoked
    · exact hjob
  unfold Job.next at hstep
  cases hphase : j.phase with
  | parked => simp [hphase] at hstep
  | discarding index r => simp [hphase] at hstep
  | extracting index => simp [hphase] at hstep
  | probing index r => simp [hphase] at hstep
  | done outcome => simp [hphase] at hstep
  | started =>
    simp only [hphase, Option.some.injEq] at hstep
    subst hstep
    split_ifs
    · exact h.goto trivial
    · exact h.goto trivial
  | admitted =>
    simp only [hphase, Option.some.injEq] at hstep
    subst hstep
    split_ifs with hcancel
    · exact h.goto (hjob (.inl hphase) hcancel)
    · exact h.goto ⟨rfl, rfl⟩
  | looping index r =>
    simp only [hphase, Option.some.injEq] at hstep
    rw [hphase] at hfits
    subst hstep
    exact h.loop hfits.1 hfits.2
  | readCancel index r =>
    simp only [hphase, Option.some.injEq] at hstep
    rw [hphase] at hfits
    obtain ⟨hcurrent, hr⟩ := hfits
    subst hstep
    split_ifs with hread
    · rw [Bool.and_eq_true] at hread
      exact h.goto ⟨hcurrent, hr, hread.1⟩
    · refine h.goto ⟨hcurrent, ?_⟩
      cases hambiguous : r.ambiguous with
      | false => exact decided_of_not_ambiguous hr hambiguous
      | true =>
        rw [hambiguous] at hread
        exact .inr (.inl ⟨not_ok_of_ambiguous hambiguous, by simpa using hread⟩)
  | readRevoked index r =>
    simp only [hphase, Option.some.injEq] at hstep
    rw [hphase] at hfits
    obtain ⟨hcurrent, hr, hambiguous⟩ := hfits
    subst hstep
    split_ifs with hrevoked
    · exact h.goto ⟨hcurrent, .inr (.inl ⟨not_ok_of_ambiguous hambiguous,
        h.cancel_of_revoked hrevoked⟩)⟩
    · exact h.goto ⟨hcurrent, hr, hambiguous⟩
  | readDenied index r =>
    simp only [hphase, Option.some.injEq] at hstep
    rw [hphase] at hfits
    obtain ⟨hcurrent, hr, hambiguous⟩ := hfits
    subst hstep
    split_ifs with hdenied hrejects
    · refine h.goto ⟨hcurrent, ?_⟩
      rcases hr with hr | hcut
      · exact .inr (.inr ⟨hr, not_ok_of_ambiguous hambiguous, hdenied⟩)
      · exact .inr (.inl hcut)
    · refine h.goto ⟨hcurrent, decided_of_rejected hr hambiguous ?_⟩
      rw [hrejects, Bool.true_or]
    · exact h.goto ⟨hcurrent, hr, hambiguous, Bool.eq_false_iff.2 hrejects⟩
  | deciding index r =>
    simp only [hphase, Option.some.injEq] at hstep
    rw [hphase] at hfits
    subst hstep
    exact h.settle hfits.1 hfits.2
  | finished r =>
    simp only [hphase, Option.some.injEq] at hstep
    rw [hphase] at hfits
    subst hstep
    exact h.finish hfits
  | closing r =>
    simp only [hphase, Option.some.injEq] at hstep
    rw [hphase] at hfits
    subst hstep
    split_ifs
    · exact h.goto trivial
    · exact h.goto (hfits.imp id And.right)
  | publishing r =>
    simp only [hphase, Option.some.injEq] at hstep
    rw [hphase] at hfits
    subst hstep
    split_ifs with hcancel
    · exact h.goto (hjob (.inr ⟨r, hphase⟩) hcancel)
    · exact h.goto (hfits.resolve_right hcancel)

theorem Inv.discarded (h : Inv c j) {index : Nat} {r : ExtractArchiveResult}
    (hphase : j.phase = .discarding index r) :
    Inv c { j with
      phase := .looping (index + 1) r
      candidateIndex := index + 1
      candidateDiscardPending := false
      output := []
      receipts := [] } := by
  have hfits := h.fits
  rw [hphase] at hfits
  obtain ⟨hindex, hr, hpending⟩ := hfits
  have hcount : j.rejectedCount = index + 1 := by
    unfold Job.rejectedCount
    rw [hpending, hindex]
    rfl
  have hle := h.le_count
  have hrejected := h.rejected
  have hrejects := h.rejects
  have hsingle := h.single
  rw [hcount] at hle hrejected hrejects hsingle
  exact ⟨hle, hrejected, hrejects, hsingle, h.cancel_of_revoked, h.of_cancel,
    fun i hi => absurd hi List.not_mem_nil, fun i hi => absurd hi List.not_mem_nil, rfl, hr⟩

/-- Every step keeps the invariant, if no revocation is taken for a cancelled job. -/
theorem Inv.step (h : Inv c j) {a : Action} (hgood : NotMistaken j a)
    (hstep : j.step c a = some j') : Inv c j' := by
  have hfits := h.fits
  unfold Job.step at hstep
  cases a with
  | revoke =>
    simp only [Option.ite_none_right_eq_some, Option.some.injEq] at hstep
    obtain ⟨-, rfl⟩ := hstep
    exact h.revoke
  | deny =>
    simp only [Option.ite_none_right_eq_some, Option.some.injEq] at hstep
    obtain ⟨-, rfl⟩ := hstep
    exact ⟨h.le_count, h.rejected, h.rejects, h.single, h.cancel_of_revoked, h.of_cancel, h.output,
      h.receipts, hfits.mono ⟨rfl, rfl, id, fun _ => rfl, id, rfl⟩⟩
  | cancelJob =>
    obtain rfl := Option.some.inj hstep
    exact ⟨h.le_count, h.rejected, h.rejects, h.single, fun _ => rfl, fun _ => .inr rfl, h.output,
      h.receipts, hfits.mono ⟨rfl, rfl, fun _ => rfl, id, fun _ => rfl, rfl⟩⟩
  | badAlloc =>
    simp only [Option.ite_none_right_eq_some, Option.some.injEq] at hstep
    obtain ⟨-, rfl⟩ := hstep
    exact h.revoke.goto trivial
  | resume =>
    cases hphase : j.phase <;> simp only [hphase, reduceCtorEq, Option.some.injEq] at hstep
    subst hstep
    exact ⟨h.le_count, h.rejected, h.rejects, h.single, fun hno => absurd hno Bool.false_ne_true,
      .inr, h.output, h.receipts, trivial⟩
  | next => exact h.next hgood hstep
  | extracted =>
    cases hphase : j.phase <;> simp only [hphase, reduceCtorEq, Option.some.injEq] at hstep
    rw [hphase] at hfits
    subst hstep
    exact h.extract hfits (.inl rfl)
  | interrupted r =>
    cases hphase : j.phase <;> simp only [hphase, reduceCtorEq] at hstep
    rw [hphase] at hfits
    simp only [Option.ite_none_right_eq_some, Option.some.injEq, Bool.and_eq_true,
      Bool.not_eq_true'] at hstep
    obtain ⟨⟨hcancel, hok⟩, rfl⟩ := hstep
    exact h.extract hfits (.inr ⟨hok, hcancel⟩)
  | probed =>
    cases hphase : j.phase <;> simp only [hphase, reduceCtorEq, Option.some.injEq] at hstep
    rw [hphase] at hfits
    obtain ⟨hcurrent, hr, hambiguous, hitems⟩ := hfits
    subst hstep
    refine h.goto ⟨hcurrent, ?_⟩
    split_ifs with hprobed
    · refine decided_of_rejected hr hambiguous ?_
      rw [hprobed, Bool.or_true]
    · refine decided_of_not_rejected hr ?_
      rw [hitems, Bool.false_or]
      exact Bool.eq_false_iff.2 hprobed
  | probeInterrupted rejects =>
    cases hphase : j.phase <;> simp only [hphase, reduceCtorEq] at hstep
    rw [hphase] at hfits
    obtain ⟨hcurrent, -, hambiguous, -⟩ := hfits
    simp only [Option.ite_none_right_eq_some, Option.some.injEq] at hstep
    obtain ⟨hcancel, rfl⟩ := hstep
    refine h.goto ⟨hcurrent, .inr (.inl ⟨?_, hcancel⟩)⟩
    split_ifs
    · rfl
    · exact not_ok_of_ambiguous hambiguous
  | discarded =>
    cases hphase : j.phase <;> simp only [hphase, reduceCtorEq, Option.some.injEq] at hstep
    subst hstep
    exact h.discarded hphase
  | discardFailed left message =>
    cases hphase : j.phase <;> simp only [hphase, reduceCtorEq] at hstep
    simp only [Option.ite_none_right_eq_some, Option.some.injEq] at hstep
    obtain ⟨hleft, rfl⟩ := hstep
    exact ⟨h.le_count, h.rejected, h.rejects, h.single, h.cancel_of_revoked, h.of_cancel,
      fun i hi => h.output i (hleft hi), h.receipts, .inl (.inr ⟨rfl, message, rfl⟩)⟩

theorem inv_of_reachable (h : ((jobs c).restrict NotMistaken).Reachable j) : Inv c j := by
  refine h.invariant (inv_init c) ?_
  intro j a j' hinv hstep
  obtain ⟨hgood, hstep⟩ := Machine.restrict_step.1 hstep
  exact hinv.step hgood hstep

end Sunpack.PasswordLoop
