import Sunpack.SpaceGate.Model
import Mathlib.Tactic.Common

/-!
# What a critical section can do

`Effect w w'` lists the ways in which an action changes the part of the world that the gate's safety
depends on: phase, episode, permit owner, token counter, registered jobs, lease tokens and generated
transitions. `perform_effect` is the only place where the functions of the gate are unfolded; every
invariant is a case analysis on `Effect`.
-/

namespace Sunpack.SpaceGate

/-- The fields of the gate that decide about permits and events are equal. -/
structure SameCore (g g' : VolumeSpaceGate) : Prop where
  phase : g'.phase = g.phase
  episodeId : g'.episodeId = g.episodeId
  emitted : g'.blockedEventEmitted = g.blockedEventEmitted
  owner : g'.probeOwnerToken = g.probeOwnerToken
  nextToken : g'.nextToken = g.nextToken

theorem SameCore.refl (g : VolumeSpaceGate) : SameCore g g := ⟨rfl, rfl, rfl, rfl, rfl⟩

/-- The tokens of the leases handed out so far. -/
def World.tokens (w : World) : List Nat := w.leases.map (·.token)

/-- Nothing but the gate changes (and the settled flags of leases). -/
structure Silent (w w' : World) : Prop where
  tokens : w'.tokens = w.tokens
  generated : w'.generated = w.generated
  registeredAt : ∀ j ∈ w'.gate.affectedJobs, w'.registeredAt j = w.registeredAt j

inductive Effect (w w' : World) : Prop
  /-- Registered jobs may have left; otherwise only diagnostics changed. -/
  | quiet (core : SameCore w.gate w'.gate) (silent : Silent w w')
      (jobs : w'.gate.affectedJobs.Sublist w.gate.affectedJobs)
  /-- A job registered; it gets a catch-up event if an episode is open. -/
  | enroll (j : String) (core : SameCore w.gate w'.gate) (tokens : w'.tokens = w.tokens)
      (fresh : j ∉ w.gate.affectedJobs)
      (jobs : w'.gate.affectedJobs = w.gate.affectedJobs ++ [j])
      (registered : w'.registeredAt = fun i =>
        if i = j then w.generated.length else w.registeredAt i)
      (generated : (w.gate.phase ≠ .ready && w.gate.blockedEventEmitted) = false ∧
          w'.generated = w.generated ∨
        ∃ t : VolumeSpaceTransition, w'.generated = w.generated ++ [t] ∧ t.kind = .blocked ∧
          t.episodeId = w.gate.episodeId ∧ t.discontinuity = false ∧ t.jobIds = [j])
  /-- A space failure on a ready volume opened the next episode. -/
  | openEpisode (was : w.gate.phase = .ready) (phase : w'.gate.phase = .blocked)
      (episodeId : w'.gate.episodeId = w.gate.episodeId + 1)
      (emitted : w'.gate.blockedEventEmitted = true) (owner : w'.gate.probeOwnerToken = 0)
      (nextToken : w'.gate.nextToken = w.gate.nextToken)
      (jobs : w'.gate.affectedJobs = w.gate.affectedJobs) (tokens : w'.tokens = w.tokens)
      (registered : w'.registeredAt = w.registeredAt)
      (generated : ∃ t : VolumeSpaceTransition, w'.generated = w.generated ++ [t] ∧
        t.kind = .blocked ∧ t.episodeId = w.gate.episodeId + 1 ∧ t.discontinuity = true ∧
          t.jobIds = w.gate.affectedJobs)
  /-- The waiting permit was handed out under a fresh token. -/
  | grant (was : w.gate.phase = .probing) (free : w.gate.probeOwnerToken = 0)
      (phase : w'.gate.phase = .probing) (episodeId : w'.gate.episodeId = w.gate.episodeId)
      (emitted : w'.gate.blockedEventEmitted = w.gate.blockedEventEmitted)
      (owner : w'.gate.probeOwnerToken = w.gate.nextToken)
      (nextToken : w'.gate.nextToken = w.gate.nextToken + 1)
      (jobs : w'.gate.affectedJobs = w.gate.affectedJobs)
      (tokens : w'.tokens = w.tokens ++ [w.gate.nextToken])
      (generated : w'.generated = w.generated) (registered : w'.registeredAt = w.registeredAt)
  /-- The permit was taken away, put up, or handed back. -/
  | repermit (was : w.gate.phase ≠ .ready) (phase : w'.gate.phase ≠ .ready)
      (episodeId : w'.gate.episodeId = w.gate.episodeId)
      (emitted : w'.gate.blockedEventEmitted = w.gate.blockedEventEmitted)
      (owner : w'.gate.probeOwnerToken = 0) (nextToken : w'.gate.nextToken = w.gate.nextToken)
      (jobs : w'.gate.affectedJobs = w.gate.affectedJobs) (silent : Silent w w')
  /-- The owner of the permit reported a real success. -/
  | resume (was : w.gate.phase = .probing) (phase : w'.gate.phase = .ready)
      (episodeId : w'.gate.episodeId = w.gate.episodeId)
      (emitted : w'.gate.blockedEventEmitted = false) (owner : w'.gate.probeOwnerToken = 0)
      (nextToken : w'.gate.nextToken = w.gate.nextToken)
      (jobs : w'.gate.affectedJobs = w.gate.affectedJobs) (tokens : w'.tokens = w.tokens)
      (registered : w'.registeredAt = w.registeredAt)
      (generated : ∃ t : VolumeSpaceTransition, w'.generated = w.generated ++ [t] ∧
        t.kind = .resumed ∧ t.episodeId = w.gate.episodeId ∧ t.discontinuity = true)

/-! ## The functions of the gate -/

namespace VolumeSpaceGate

variable (g : VolumeSpaceGate)

theorem ownsProbeLocked_iff {token : Nat} :
    g.ownsProbeLocked token = true ↔
      g.phase = .probing ∧ token ≠ 0 ∧ g.probeOwnerToken = token := by
  simp [ownsProbeLocked, and_assoc]

/-- A lease that does not own the permit is inert, however it is settled. -/
theorem settle_stale {token : Nat} (h : g.ownsProbeLocked token = false) (how : Settlement) :
    g.settle token how = (g, []) := by
  cases how <;> simp [settle, settleSuccess, settleSpaceFailure, settleInconclusive, h]

/-- Settling the permit as a success is the one settlement that makes the volume ready. -/
theorem settle_ready {token : Nat} {how : Settlement} (h : g.phase ≠ .ready)
    (h' : (g.settle token how).1.phase = .ready) :
    how = .success ∧ g.ownsProbeLocked token = true := by
  cases hown : g.ownsProbeLocked token with
  | false => exact absurd (by simpa [g.settle_stale hown how] using h') h
  | true =>
    have hp := ((g.ownsProbeLocked_iff).1 hown).1
    cases how <;> simp_all [settle, settleSpaceFailure, settleInconclusive]

theorem decideLocked_cases (terminal : Bool) :
    (∃ r, g.decideLocked terminal = (g, r) ∧ ∀ token, r ≠ .probe token) ∨
      (g.phase = .probing ∧ g.probeOwnerToken = 0 ∧ g.decideLocked terminal =
        ({ g with nextToken := g.nextToken + 1, probeOwnerToken := g.nextToken },
          .probe g.nextToken)) := by
  unfold decideLocked
  split_ifs with h₁ h₂ h₃
  · exact .inl ⟨_, rfl, by simp⟩
  · exact .inl ⟨_, rfl, by simp⟩
  · simp only [Bool.and_eq_true, decide_eq_true_eq] at h₃
    exact .inr ⟨h₃.1, h₃.2, rfl⟩
  · exact .inl ⟨_, rfl, by simp⟩

@[simp] theorem registerJob_phase (jobId : String) :
    (g.registerJob jobId).1.phase = g.phase := by
  simp only [registerJob]
  split_ifs <;> rfl

@[simp] theorem unregisterJob_phase (jobId : String) :
    (g.unregisterJob jobId).phase = g.phase := by
  simp only [unregisterJob]
  split_ifs <;> rfl

@[simp] theorem decideLocked_phase (terminal : Bool) :
    (g.decideLocked terminal).1.phase = g.phase := by
  unfold decideLocked
  split_ifs <;> rfl

@[simp] theorem tryWait_phase (terminal : Bool) : (g.tryWait terminal).1.phase = g.phase := by
  simp [tryWait]

@[simp] theorem waitFirst_phase (terminal : Bool) :
    (g.waitFirst terminal).1.phase = g.phase := by
  simp only [waitFirst]
  split_ifs <;> simp

@[simp] theorem waitAgain_phase (waiter : Nat) (terminal : Bool) :
    (g.waitAgain waiter terminal).1.phase = g.phase := by
  simp only [waitAgain, removeWaiterLocked]
  split_ifs <;> simp

end VolumeSpaceGate

@[simp] theorem World.grant_gate (w : World) (r : VolumeSpaceGate × WaitResult) :
    (w.grant r).gate = r.1 := by
  unfold World.grant
  split <;> rfl

/-! ## The effect of each action -/

theorem tokens_set (w : World) {i : Nat} {lease : ProbeLease} (h : w.leases[i]? = some lease) :
    (w.leases.set i { lease with settled := true }).map (·.token) = w.tokens := by
  obtain ⟨hi, rfl⟩ := List.getElem?_eq_some_iff.1 h
  rw [List.map_set, World.tokens]
  refine List.ext_getElem (by simp) fun k hk _ => ?_
  rw [List.getElem_set]
  split_ifs with hik
  · subst hik
    simp
  · rfl

/-- A decision, made on a gate `g` that differs from the world's one in its waiters only. -/
theorem grant_effect (w : World) (g g' : VolumeSpaceGate) (r : WaitResult)
    (hcore : SameCore w.gate g) (hjobs : g.affectedJobs = w.gate.affectedJobs)
    (hr : (SameCore g g' ∧ g'.affectedJobs = g.affectedJobs ∧ ∀ token, r ≠ .probe token) ∨
      (g.phase = .probing ∧ g.probeOwnerToken = 0 ∧ r = .probe g.nextToken ∧
        SameCore { g with nextToken := g.nextToken + 1, probeOwnerToken := g.nextToken } g' ∧
          g'.affectedJobs = g.affectedJobs)) :
    Effect w (w.grant (g', r)) := by
  rcases hr with ⟨hsame, hj, hnot⟩ | ⟨hphase, hfree, rfl, hsame, hj⟩
  · have heq : w.grant (g', r) = { w with gate := g' } := by
      cases r with
      | probe token => exact absurd rfl (hnot token)
      | _ => rfl
    rw [heq]
    refine .quiet ⟨?_, ?_, ?_, ?_, ?_⟩ ⟨rfl, rfl, fun _ _ => rfl⟩ ?_
    · exact hsame.phase.trans hcore.phase
    · exact hsame.episodeId.trans hcore.episodeId
    · exact hsame.emitted.trans hcore.emitted
    · exact hsame.owner.trans hcore.owner
    · exact hsame.nextToken.trans hcore.nextToken
    · simp [hj, hjobs]
  · refine .grant (hcore.phase ▸ hphase) (hcore.owner ▸ hfree) ?_ ?_ ?_ ?_ ?_ ?_ ?_ rfl rfl
    · exact hsame.phase.trans hphase
    · exact hsame.episodeId.trans hcore.episodeId
    · exact hsame.emitted.trans hcore.emitted
    · exact hsame.owner.trans hcore.nextToken
    · simpa [World.grant, hcore.nextToken] using hsame.nextToken
    · simp [World.grant, hj, hjobs]
    · simp [World.grant, World.tokens, hcore.nextToken]

theorem tryWait_effect (w : World) (terminal : Bool) :
    Effect w (w.grant (w.gate.tryWait terminal)) := by
  rw [VolumeSpaceGate.tryWait]
  generalize hg : ({ w.gate with nextWaiterToken := _ } : VolumeSpaceGate) = g
  have hcore : SameCore w.gate g := hg ▸ ⟨rfl, rfl, rfl, rfl, rfl⟩
  have hjobs : g.affectedJobs = w.gate.affectedJobs := hg ▸ rfl
  rcases g.decideLocked_cases terminal with ⟨r, h, hnot⟩ | ⟨hp, ho, h⟩
  · rw [h]
    exact grant_effect w g _ _ hcore hjobs (.inl ⟨.refl g, rfl, hnot⟩)
  · rw [h]
    exact grant_effect w g _ _ hcore hjobs (.inr ⟨hp, ho, rfl, .refl _, rfl⟩)

theorem waitFirst_effect (w : World) (terminal : Bool) :
    Effect w (w.grant (w.gate.waitFirst terminal)) := by
  rw [VolumeSpaceGate.waitFirst]
  generalize hg : ({ w.gate with nextWaiterToken := _ } : VolumeSpaceGate) = g
  have hcore : SameCore w.gate g := hg ▸ ⟨rfl, rfl, rfl, rfl, rfl⟩
  have hjobs : g.affectedJobs = w.gate.affectedJobs := hg ▸ rfl
  rcases g.decideLocked_cases terminal with ⟨r, h, hnot⟩ | ⟨hp, ho, h⟩
  · simp only [h]
    split_ifs with hpending
    · exact grant_effect w g _ _ hcore hjobs (.inl ⟨⟨rfl, rfl, rfl, rfl, rfl⟩, rfl, hnot⟩)
    · exact grant_effect w g _ _ hcore hjobs (.inl ⟨.refl g, rfl, hnot⟩)
  · simp only [h, reduceCtorEq, if_false]
    exact grant_effect w g _ _ hcore hjobs (.inr ⟨hp, ho, rfl, .refl _, rfl⟩)

theorem waitAgain_effect (w : World) (waiter : Nat) (terminal : Bool) :
    Effect w (w.grant (w.gate.waitAgain waiter terminal)) := by
  rw [VolumeSpaceGate.waitAgain]
  have hcore : SameCore w.gate w.gate := .refl _
  rcases w.gate.decideLocked_cases terminal with ⟨r, h, hnot⟩ | ⟨hp, ho, h⟩
  · simp only [h]
    split_ifs with hpending
    · exact grant_effect w _ _ _ hcore rfl (.inl ⟨.refl _, rfl, hnot⟩)
    · exact grant_effect w _ _ _ hcore rfl (.inl ⟨⟨rfl, rfl, rfl, rfl, rfl⟩, rfl, hnot⟩)
  · simp only [h, reduceCtorEq, if_false]
    exact grant_effect w _ _ _ hcore rfl (.inr ⟨hp, ho, rfl, ⟨rfl, rfl, rfl, rfl, rfl⟩, rfl⟩)

theorem quiet_refl (w : World) : Effect w w :=
  .quiet (.refl _) ⟨rfl, rfl, fun _ _ => rfl⟩ (List.Sublist.refl _)

theorem registerJob_effect (w : World) (jobId : String) :
    Effect w (w.perform (.registerJob jobId)) := by
  rw [World.perform, VolumeSpaceGate.registerJob, World.publish]
  by_cases hmem : jobId ∈ w.gate.affectedJobs
  · simp only [hmem, if_true, ite_self, List.append_nil]
    exact quiet_refl w
  simp only [hmem, if_false]
  by_cases hempty : jobId = ""
  · simp only [hempty, if_true, List.append_nil]
    refine .quiet (.refl _) ⟨rfl, rfl, fun j hj => if_neg ?_⟩ (List.Sublist.refl _)
    rintro rfl
    exact hmem (hempty ▸ hj)
  simp only [hempty, if_false]
  by_cases hopen : (w.gate.phase ≠ .ready && w.gate.blockedEventEmitted) = true
  · simp only [hopen, if_true]
    exact .enroll jobId ⟨rfl, rfl, rfl, rfl, rfl⟩ rfl hmem rfl rfl
      (.inr ⟨_, rfl, rfl, rfl, rfl, rfl⟩)
  · simp only [hopen, Bool.false_eq_true, if_false, List.append_nil]
    exact .enroll jobId ⟨rfl, rfl, rfl, rfl, rfl⟩ rfl hmem rfl rfl
      (.inl ⟨by simpa using hopen, rfl⟩)

theorem unregisterJob_effect (w : World) (jobId : String) :
    Effect w (w.perform (.unregisterJob jobId)) := by
  rw [World.perform, VolumeSpaceGate.unregisterJob]
  split_ifs with hempty
  · exact quiet_refl w
  · exact .quiet ⟨rfl, rfl, rfl, rfl, rfl⟩ ⟨rfl, rfl, fun _ _ => rfl⟩ List.filter_sublist

theorem reportSpaceFailure_effect (w : World) (e : Nat) :
    Effect w (w.perform (.reportSpaceFailure e)) := by
  rw [World.perform, VolumeSpaceGate.reportSpaceFailure, World.publish]
  by_cases hready : w.gate.phase = .ready
  · simp only [hready, if_true]
    exact .openEpisode hready rfl rfl rfl rfl rfl rfl rfl rfl ⟨_, rfl, rfl, rfl, rfl, rfl⟩
  · simp only [hready, if_false, List.append_nil]
    exact .quiet ⟨rfl, rfl, rfl, rfl, rfl⟩ ⟨rfl, rfl, fun _ _ => rfl⟩ (List.Sublist.refl _)

theorem queryFailure_effect (w : World) (e : Nat) :
    Effect w (w.perform (.queryFailure e)) := by
  rw [World.perform, VolumeSpaceGate.noteQueryFailure, VolumeSpaceGate.recordQueryFailureLocked]
  by_cases hp : w.gate.phase = .probing
  · simp only [hp, ne_eq, not_true, if_false]
    exact .repermit (by simp [hp]) (by simp) rfl rfl rfl rfl rfl ⟨rfl, rfl, fun _ _ => rfl⟩
  · simp only [hp, ne_eq, not_false_eq_true, if_true]
    exact .quiet ⟨rfl, rfl, rfl, rfl, rfl⟩ ⟨rfl, rfl, fun _ _ => rfl⟩ (List.Sublist.refl _)

theorem poll_effect (w : World) (free : Nat) : Effect w (w.perform (.poll free)) := by
  rw [World.perform, VolumeSpaceGate.poll]
  by_cases hb : w.gate.phase = .blocked ∧ free ≠ 0
  · simp only [hb.1, hb.2, ne_eq, not_true, decide_false, Bool.or_false, Bool.false_eq_true, if_false]
    exact .repermit (by simp [hb.1]) (by simp) rfl rfl rfl rfl rfl ⟨rfl, rfl, fun _ _ => rfl⟩
  · have : (w.gate.phase ≠ .blocked || free = 0) = true := by
      by_cases h : w.gate.phase = .blocked <;> simp_all
    simp only [this, if_true]
    exact .quiet ⟨rfl, rfl, rfl, rfl, rfl⟩ ⟨rfl, rfl, fun _ _ => rfl⟩ (List.Sublist.refl _)

theorem settle_effect (w : World) (i : Nat) (how : Settlement) :
    Effect w (w.perform (.settle i how)) := by
  rw [World.perform]
  split
  · exact quiet_refl w
  rename_i lease hlease
  split_ifs with hsettled
  · exact quiet_refl w
  have htokens := tokens_set w hlease
  cases hown : w.gate.ownsProbeLocked lease.token with
  | false =>
    rw [w.gate.settle_stale hown]
    exact .quiet (.refl _) ⟨htokens, by simp [World.publish], fun _ _ => rfl⟩ (List.Sublist.refl _)
  | true =>
    have hp := ((w.gate.ownsProbeLocked_iff).1 hown).1
    cases how with
    | success =>
      simp only [VolumeSpaceGate.settle, VolumeSpaceGate.settleSuccess, hown, if_true]
      exact .resume hp rfl rfl rfl rfl rfl rfl htokens rfl ⟨_, rfl, rfl, rfl, rfl⟩
    | spaceFailure e =>
      simp only [VolumeSpaceGate.settle, VolumeSpaceGate.settleSpaceFailure, hown, if_true]
      exact .repermit (by simp [hp]) (by simp [World.publish]) rfl rfl rfl rfl rfl
        ⟨htokens, by simp [World.publish], fun _ _ => rfl⟩
    | inconclusive =>
      simp only [VolumeSpaceGate.settle, VolumeSpaceGate.settleInconclusive, hown, if_true]
      exact .repermit (by simp [hp]) (by simp [World.publish, hp]) rfl rfl rfl rfl rfl
        ⟨htokens, by simp [World.publish], fun _ _ => rfl⟩

theorem perform_effect (w : World) (a : Action) : Effect w (w.perform a) := by
  cases a with
  | registerJob jobId => exact registerJob_effect w jobId
  | unregisterJob jobId => exact unregisterJob_effect w jobId
  | reportSpaceFailure e => exact reportSpaceFailure_effect w e
  | tryWait terminal => exact tryWait_effect w terminal
  | waitFirst terminal => exact waitFirst_effect w terminal
  | waitAgain waiter terminal =>
    rw [World.perform]
    split_ifs with hw
    · exact waitAgain_effect w waiter terminal
    · exact quiet_refl w
  | querySuccess free =>
    exact .quiet ⟨rfl, rfl, rfl, rfl, rfl⟩ ⟨rfl, rfl, fun _ _ => rfl⟩ (List.Sublist.refl _)
  | queryFailure e => exact queryFailure_effect w e
  | poll free => exact poll_effect w free
  | settle i how => exact settle_effect w i how

end Sunpack.SpaceGate
