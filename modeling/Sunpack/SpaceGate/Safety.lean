import Sunpack.SpaceGate.Effect

/-!
# Safety of the volume space gate

For every interleaving of the gate's critical sections: one lease at most can still change the gate,
only the owner's success makes a volume ready, a permit goes back to a positive sample that is newer
than every failure, episodes open and close in turn, and every registered job is told about the
current episode exactly once.
-/

namespace Sunpack.SpaceGate

open Lib (Machine)

/-! ## What is claimed -/

/-- Lease `i` is unsettled, and some way of settling it changes the gate. -/
def World.CanChange (w : World) (i : Nat) : Prop :=
  ∃ lease how, w.leases[i]? = some lease ∧ lease.settled = false ∧
    (w.gate.settle lease.token how).1 ≠ w.gate

/-- The `i`-th lease is unsettled and owns the permit. -/
def Moment.Owns (m : Moment) (i : Nat) : Prop :=
  ∃ lease, m.leases[i]? = some lease ∧ lease.settled = false ∧
    m.gate.ownsProbeLocked lease.token = true

/-- The moments that end a permit: a failed query, a ready volume becoming blocked, and the success
or the space failure that the owner of the permit settles. -/
def Moment.Revokes (m : Moment) : Prop :=
  match m.action with
  | .queryFailure _ => True
  | .reportSpaceFailure _ => m.gate.phase = .ready
  | .settle i how => how ≠ .inconclusive ∧ m.Owns i
  | _ => False

/-- A poll with free bytes that found the volume blocked. -/
def Moment.Authorises (m : Moment) : Prop :=
  ∃ free, m.action = .poll free ∧ 0 < free ∧ m.gate.phase = .blocked

/-- Since the last revoking moment there was an authorising one (`history` is latest first). -/
def Authorised (history : List Moment) : Prop :=
  ∃ later m earlier, history = later ++ m :: earlier ∧ m.Authorises ∧ ∀ x ∈ later, ¬ x.Revokes

/-- The real changes of writability generated so far. -/
def World.changes (w : World) : List (TransitionKind × Nat) :=
  (w.generated.filter (·.discontinuity)).map fun t => (t.kind, t.episodeId)

/-- Blocked 1, resumed 1, blocked 2, resumed 2, … -/
def alternation (k : Nat) : TransitionKind × Nat :=
  (if k % 2 = 0 then .blocked else .resumed, k / 2 + 1)

/-- The blocked transitions of the current episode that named `j` since it registered. -/
def World.namings (w : World) (j : String) : List VolumeSpaceTransition :=
  (w.generated.drop (w.registeredAt j)).filter fun t =>
    t.kind = .blocked && t.episodeId = w.gate.episodeId && j ∈ t.jobIds

/-! ## Permits -/

/-- Leases with a token below `n` do not own the permit, and never will. -/
def Fenced (n : Nat) (w : World) : Prop :=
  n ≤ w.gate.nextToken ∧
    (w.gate.phase = .probing → w.gate.probeOwnerToken = 0 ∨ n ≤ w.gate.probeOwnerToken)

theorem fenced_effect {n : Nat} {w w' : World} (h : Fenced n w) (e : Effect w w') :
    Fenced n w' := by
  obtain ⟨hn, howner⟩ := h
  cases e with
  | quiet core _ _ =>
    rw [Fenced, core.nextToken, core.phase, core.owner]
    exact ⟨hn, howner⟩
  | enroll j core =>
    rw [Fenced, core.nextToken, core.phase, core.owner]
    exact ⟨hn, howner⟩
  | openEpisode _ hphase _ _ _ hnext => exact ⟨hnext ▸ hn, by simp [hphase]⟩
  | grant _ _ _ _ _ hown hnext => exact ⟨by omega, fun _ => .inr (hown ▸ hn)⟩
  | repermit _ _ _ _ hown hnext => exact ⟨hnext ▸ hn, fun _ => .inl hown⟩
  | resume _ hphase _ _ _ hnext => exact ⟨hnext ▸ hn, by simp [hphase]⟩

theorem Fenced.stale {n token : Nat} {w : World} (h : Fenced n w) (ht : token < n) :
    w.gate.ownsProbeLocked token = false := by
  rw [Bool.eq_false_iff, ne_eq, VolumeSpaceGate.ownsProbeLocked_iff]
  rintro ⟨hphase, hpos, hown⟩
  rcases h.2 hphase with h0 | hle <;> omega

/-- A revoking action leaves the phase other than probing. -/
theorem phase_of_revokes {w : World} {a : Action} (h : Moment.Revokes ⟨a, w.gate, w.leases⟩) :
    (w.perform a).gate.phase ≠ .probing := by
  cases a with
  | queryFailure e =>
    rw [World.perform, VolumeSpaceGate.noteQueryFailure, VolumeSpaceGate.recordQueryFailureLocked]
    by_cases hp : w.gate.phase = .probing <;> simp [hp]
  | reportSpaceFailure e =>
    have hready : w.gate.phase = .ready := h
    simp [World.perform, World.publish, VolumeSpaceGate.reportSpaceFailure, hready]
  | settle i how =>
    obtain ⟨hhow, lease, hlease, hsettled, hown⟩ := h
    simp only at hlease hown
    rw [World.perform, hlease]
    cases how with
    | success =>
      simp [hsettled, World.publish, VolumeSpaceGate.settle, VolumeSpaceGate.settleSuccess, hown]
    | spaceFailure e =>
      simp [hsettled, World.publish, VolumeSpaceGate.settle, VolumeSpaceGate.settleSpaceFailure,
        hown]
    | inconclusive => exact absurd rfl hhow
  | _ => exact h.elim

/-- Only a positive poll of a blocked volume starts probing. -/
theorem authorises_of_probing {w : World} {a : Action} (hwas : w.gate.phase ≠ .probing)
    (h : (w.perform a).gate.phase = .probing) :
    Moment.Authorises ⟨a, w.gate, w.leases⟩ := by
  cases a with
  | poll free =>
    by_cases hb : w.gate.phase = .blocked ∧ free ≠ 0
    · exact ⟨free, rfl, Nat.pos_of_ne_zero hb.2, hb.1⟩
    · have hkeep : (w.gate.phase ≠ .blocked || free = 0) = true := by
        by_cases h' : w.gate.phase = .blocked <;> simp_all
      simp only [World.perform, VolumeSpaceGate.poll, hkeep, if_true] at h
      exact absurd h hwas
  | registerJob jobId =>
    simp only [World.perform, World.publish] at h
    split_ifs at h <;> exact absurd (by simpa using h) hwas
  | unregisterJob jobId => exact absurd (by simpa [World.perform] using h) hwas
  | reportSpaceFailure e =>
    simp only [World.perform, World.publish, VolumeSpaceGate.reportSpaceFailure] at h
    split_ifs at h
    exact absurd h hwas
  | tryWait terminal => exact absurd (by simpa [World.perform] using h) hwas
  | waitFirst terminal => exact absurd (by simpa [World.perform] using h) hwas
  | waitAgain waiter terminal =>
    rw [World.perform] at h
    split_ifs at h
    · exact absurd (by simpa using h) hwas
    · exact absurd h hwas
  | querySuccess free => exact absurd h hwas
  | queryFailure e => exact absurd h (phase_of_revokes (a := .queryFailure e) trivial)
  | settle i how =>
    have hstale (token : Nat) : w.gate.ownsProbeLocked token = false := by
      simp [VolumeSpaceGate.ownsProbeLocked, hwas]
    rw [World.perform] at h
    split at h
    · exact absurd h hwas
    split_ifs at h
    · exact absurd h hwas
    · rw [w.gate.settle_stale (hstale _)] at h
      exact absurd h hwas

/-! ## The invariant -/

/-- Lease tokens are fresh and never reused. -/
structure Permits (w : World) : Prop where
  nextToken_pos : 0 < w.gate.nextToken
  token_lt : ∀ t ∈ w.tokens, t < w.gate.nextToken
  nodup : w.tokens.Nodup

/-- How many real changes there have been. -/
def World.changeCount (w : World) : Nat :=
  if w.gate.phase = .ready then 2 * w.gate.episodeId else 2 * w.gate.episodeId - 1

/-- The phase, the episode counter and the generated changes agree. -/
structure Episodes (w : World) : Prop where
  emitted : w.gate.phase ≠ .ready → w.gate.blockedEventEmitted = true
  opened : w.gate.phase ≠ .ready → 0 < w.gate.episodeId
  changes : w.changes = (List.range w.changeCount).map alternation

/-- Every registered job has heard of the current episode once. -/
structure Told (w : World) : Prop where
  registeredAt_le : ∀ j ∈ w.gate.affectedJobs, w.registeredAt j ≤ w.generated.length
  episode_le : ∀ t ∈ w.generated, t.episodeId ≤ w.gate.episodeId
  once : w.gate.phase ≠ .ready → ∀ j ∈ w.gate.affectedJobs, (w.namings j).length = 1

structure Inv (w : World) : Prop where
  permits : Permits w
  episodes : Episodes w
  told : Told w
  authorised : w.gate.phase = .probing → Authorised w.history

theorem permits_of_eq {w w' : World} (h : Permits w) (hn : w'.gate.nextToken = w.gate.nextToken)
    (ht : w'.tokens = w.tokens) : Permits w' := by
  obtain ⟨h₁, h₂, h₃⟩ := h
  exact ⟨hn ▸ h₁, by rw [ht, hn]; exact h₂, ht ▸ h₃⟩

theorem permits_effect {w w' : World} (h : Permits w) (e : Effect w w') : Permits w' := by
  cases e with
  | quiet core silent => exact permits_of_eq h core.nextToken silent.tokens
  | enroll _ core ht => exact permits_of_eq h core.nextToken ht
  | openEpisode _ _ _ _ _ hn _ ht => exact permits_of_eq h hn ht
  | repermit _ _ _ _ _ hn _ silent => exact permits_of_eq h hn silent.tokens
  | resume _ _ _ _ _ hn _ ht => exact permits_of_eq h hn ht
  | grant _ _ _ _ _ _ hn _ ht =>
    obtain ⟨hpos, hlt, hnodup⟩ := h
    refine ⟨by omega, fun t hmem => ?_, ?_⟩
    · rw [ht, List.mem_append, List.mem_singleton] at hmem
      rcases hmem with hmem | rfl
      · have := hlt t hmem
        omega
      · omega
    · rw [ht, List.nodup_append]
      refine ⟨hnodup, by simp, fun t hmem u hu => ?_⟩
      rw [List.mem_singleton.1 hu]
      exact Nat.ne_of_lt (hlt t hmem)

theorem changes_append (w : World) {gs : List VolumeSpaceTransition} {w' : World}
    (h : w'.generated = w.generated ++ gs) :
    w'.changes = w.changes ++ (gs.filter (·.discontinuity)).map fun t => (t.kind, t.episodeId) := by
  simp [World.changes, h]

theorem episodes_of_eq {w w' : World} (h : Episodes w)
    (hphase : w'.gate.phase = .ready ↔ w.gate.phase = .ready)
    (hep : w'.gate.episodeId = w.gate.episodeId)
    (hem : w'.gate.blockedEventEmitted = w.gate.blockedEventEmitted)
    (hch : w'.changes = w.changes) : Episodes w' := by
  obtain ⟨h₁, h₂, h₃⟩ := h
  refine ⟨fun hp => ?_, fun hp => ?_, ?_⟩
  · exact hem ▸ h₁ (by rwa [ne_eq, hphase] at hp)
  · exact hep ▸ h₂ (by rwa [ne_eq, hphase] at hp)
  · have hcount : w'.changeCount = w.changeCount := by
      simp only [World.changeCount, hphase, hep]
    rw [hch, hcount, h₃]

theorem episodes_effect {w w' : World} (h : Episodes w) (e : Effect w w') : Episodes w' := by
  cases e with
  | quiet core silent =>
    exact episodes_of_eq h (by rw [core.phase]) core.episodeId core.emitted
      (by simp [World.changes, silent.generated])
  | enroll j core _ _ _ _ hgen =>
    refine episodes_of_eq h (by rw [core.phase]) core.episodeId core.emitted ?_
    rcases hgen with ⟨_, hgen⟩ | ⟨t, hgen, _, _, hdisc, _⟩
    · simp [World.changes, hgen]
    · simp [changes_append w hgen, hdisc]
  | openEpisode hwas hphase hep hem _ _ _ _ _ hgen =>
    obtain ⟨t, hgen, hkind, htep, hdisc, _⟩ := hgen
    refine ⟨fun _ => hem, fun _ => by omega, ?_⟩
    have hcount : w'.changeCount = w.changeCount + 1 := by
      simp only [World.changeCount, hwas, hphase, hep, reduceCtorEq, if_true, if_false]
      omega
    rw [hcount, List.range_succ, List.map_append, ← h.changes, changes_append w hgen]
    simp [hdisc, alternation, World.changeCount, hwas, hkind, htep]
  | grant hwas _ hphase hep hem _ _ _ _ hgen =>
    exact episodes_of_eq h (by rw [hphase, hwas]) hep hem (by simp [World.changes, hgen])
  | repermit hwas hphase hep hem _ _ _ silent =>
    exact episodes_of_eq h (iff_of_false hphase hwas) hep hem
      (by simp [World.changes, silent.generated])
  | resume hwas hphase hep _ _ _ _ _ _ hgen =>
    obtain ⟨t, hgen, hkind, htep, hdisc⟩ := hgen
    have hpos := h.opened (by simp [hwas])
    refine ⟨by simp [hphase], by simp [hphase], ?_⟩
    have hcount : w'.changeCount = w.changeCount + 1 := by
      simp only [World.changeCount, hwas, hphase, hep, reduceCtorEq, if_true, if_false]
      omega
    rw [hcount, List.range_succ, List.map_append, ← h.changes, changes_append w hgen]
    have hodd : (2 * w.gate.episodeId - 1) % 2 = 1 := by omega
    have hhalf : (2 * w.gate.episodeId - 1) / 2 + 1 = w.gate.episodeId := by omega
    simp [hdisc, alternation, World.changeCount, hwas, hkind, htep, hodd, hhalf]

/-! ### Namings -/

theorem told_of_eq {w w' : World} (h : Told w)
    (hphase : w'.gate.phase ≠ .ready → w.gate.phase ≠ .ready)
    (hep : w'.gate.episodeId = w.gate.episodeId) (hgen : w'.generated = w.generated)
    (hjobs : ∀ j ∈ w'.gate.affectedJobs,
      j ∈ w.gate.affectedJobs ∧ w'.registeredAt j = w.registeredAt j) : Told w' := by
  obtain ⟨h₁, h₂, h₃⟩ := h
  refine ⟨fun j hj => ?_, by rw [hgen, hep]; exact h₂, fun hp j hj => ?_⟩
  · rw [(hjobs j hj).2, hgen]
    exact h₁ j (hjobs j hj).1
  · rw [World.namings, (hjobs j hj).2, hgen, hep]
    exact h₃ (hphase hp) j (hjobs j hj).1

/-- The namings of a job after one more transition. -/
theorem namings_append {w w' : World} {t : VolumeSpaceTransition} {j : String}
    (hgen : w'.generated = w.generated ++ [t]) (hep : w'.gate.episodeId = w.gate.episodeId)
    (hreg : w'.registeredAt j = w.registeredAt j)
    (hle : w.registeredAt j ≤ w.generated.length) :
    w'.namings j = w.namings j ++ [t].filter fun t =>
      t.kind = .blocked && t.episodeId = w.gate.episodeId && j ∈ t.jobIds := by
  rw [World.namings, hgen, hep, hreg, List.drop_append_of_le_length hle, List.filter_append]
  rfl

theorem told_effect {w w' : World} (h : Told w) (hemitted : Episodes w) (e : Effect w w') :
    Told w' := by
  cases e with
  | quiet core silent hsub =>
    exact told_of_eq h (by rw [core.phase]; exact id) core.episodeId silent.generated
      fun j hj => ⟨hsub.subset hj, silent.registeredAt j hj⟩
  | grant hwas _ _ hep _ _ _ hjobs _ hgen hreg =>
    exact told_of_eq h (by simp [hwas]) hep hgen fun j hj => ⟨hjobs ▸ hj, by rw [hreg]⟩
  | repermit hwas _ hep _ _ _ hjobs silent =>
    exact told_of_eq h (fun _ => hwas) hep silent.generated
      fun j hj => ⟨hjobs ▸ hj, silent.registeredAt j hj⟩
  | resume _ hphase hep _ _ _ hjobs _ hreg hgen =>
    obtain ⟨t, hgen, _, htep, _⟩ := hgen
    refine ⟨fun j hj => ?_, fun u hu => ?_, by simp [hphase]⟩
    · have := h.registeredAt_le j (hjobs ▸ hj)
      rw [hreg, hgen, List.length_append]
      omega
    · rw [hgen, List.mem_append, List.mem_singleton] at hu
      rcases hu with hu | rfl
      · exact hep ▸ h.episode_le u hu
      · exact Nat.le_of_eq (htep.trans hep.symm)
  | openEpisode hwas _ hep _ _ _ hjobs _ hreg hgen =>
    obtain ⟨t, hgen, hkind, htep, _, hids⟩ := hgen
    refine ⟨fun j hj => ?_, fun u hu => ?_, fun _ j hj => ?_⟩
    · have := h.registeredAt_le j (hjobs ▸ hj)
      rw [hreg, hgen, List.length_append]
      omega
    · rw [hgen, List.mem_append, List.mem_singleton] at hu
      rcases hu with hu | rfl
      · have := h.episode_le u hu
        omega
      · exact Nat.le_of_eq (htep.trans hep.symm)
    · rw [hjobs] at hj
      -- the new episode's number is above every generated one, so only `t` names `j` in it
      have hold : (w.generated.drop (w.registeredAt j)).filter
          (fun u => u.kind = .blocked && u.episodeId = w.gate.episodeId + 1 && j ∈ u.jobIds) =
            [] := by
        rw [List.filter_eq_nil_iff]
        intro u hu
        have := h.episode_le u (List.mem_of_mem_drop hu)
        have hne : u.episodeId ≠ w.gate.episodeId + 1 := by omega
        simp [hne]
      rw [World.namings, hgen, hep, hreg,
        List.drop_append_of_le_length (h.registeredAt_le j hj), List.filter_append, hold]
      simp [hkind, htep, hids, hj]
  | enroll i core _ hfresh hjobs hreg hgen =>
    refine ⟨fun j hj => ?_, fun u hu => ?_, fun hp j hj => ?_⟩
    · have hlen : w.generated.length ≤ w'.generated.length := by
        rcases hgen with ⟨_, hgen⟩ | ⟨t, hgen, _⟩ <;> simp [hgen]
      rw [hjobs, List.mem_append, List.mem_singleton] at hj
      simp only [hreg]
      split_ifs with hji
      · exact hlen
      · exact Nat.le_trans (h.registeredAt_le j (hj.resolve_right hji)) hlen
    · rw [core.episodeId]
      rcases hgen with ⟨_, hgen⟩ | ⟨t, hgen, _, htep, _, _⟩
      · exact h.episode_le u (hgen ▸ hu)
      · rw [hgen, List.mem_append, List.mem_singleton] at hu
        rcases hu with hu | rfl
        · exact h.episode_le u hu
        · exact Nat.le_of_eq htep
    · rw [core.phase] at hp
      rcases hgen with ⟨hclosed, _⟩ | ⟨t, hgen, hkind, htep, _, hids⟩
      · simp [hp, hemitted.emitted hp] at hclosed
      rw [hjobs, List.mem_append, List.mem_singleton] at hj
      by_cases hji : j = i
      · subst hji
        simp [World.namings, hreg, hgen, core.episodeId, hkind, htep, hids]
      · have hmem := hj.resolve_right hji
        rw [namings_append hgen core.episodeId (by simp [hreg, hji]) (h.registeredAt_le j hmem)]
        simpa [hids, hji] using h.once hp j hmem

/-! ### Every reachable world -/

theorem authorised_step {w : World} (h : w.gate.phase = .probing → Authorised w.history)
    (a : Action) (hp : (w.perform a).gate.phase = .probing) :
    Authorised (⟨a, w.gate, w.leases⟩ :: w.history) := by
  by_cases hwas : w.gate.phase = .probing
  · obtain ⟨later, m, earlier, heq, hm, hlater⟩ := h hwas
    refine ⟨⟨a, w.gate, w.leases⟩ :: later, m, earlier, by simp [heq], hm, fun x hx => ?_⟩
    rcases List.mem_cons.1 hx with rfl | hx
    · exact fun hrev => phase_of_revokes hrev hp
    · exact hlater x hx
  · exact ⟨[], _, w.history, rfl, authorises_of_probing hwas hp, by simp⟩

theorem step_eq {w w' : World} {a : Action} (h : machine.step w a = some w') :
    w' = { w.perform a with history := ⟨a, w.gate, w.leases⟩ :: w.history } :=
  (Option.some.inj h).symm

/-- The history does not take part in the effect of a step. -/
theorem step_effect {w w' : World} {a : Action} (h : machine.step w a = some w') :
    Effect w w' := by
  rw [step_eq h]
  cases perform_effect w a with
  | quiet core silent jobs =>
    exact .quiet ⟨core.phase, core.episodeId, core.emitted, core.owner, core.nextToken⟩
      ⟨silent.tokens, silent.generated, silent.registeredAt⟩ jobs
  | enroll j core h₁ h₂ h₃ h₄ h₅ =>
    exact .enroll j ⟨core.phase, core.episodeId, core.emitted, core.owner, core.nextToken⟩
      h₁ h₂ h₃ h₄ h₅
  | openEpisode h₁ h₂ h₃ h₄ h₅ h₆ h₇ h₈ h₉ h₁₀ =>
    exact .openEpisode h₁ h₂ h₃ h₄ h₅ h₆ h₇ h₈ h₉ h₁₀
  | grant h₁ h₂ h₃ h₄ h₅ h₆ h₇ h₈ h₉ h₁₀ h₁₁ => exact .grant h₁ h₂ h₃ h₄ h₅ h₆ h₇ h₈ h₉ h₁₀ h₁₁
  | repermit h₁ h₂ h₃ h₄ h₅ h₆ h₇ silent =>
    exact .repermit h₁ h₂ h₃ h₄ h₅ h₆ h₇ ⟨silent.tokens, silent.generated, silent.registeredAt⟩
  | resume h₁ h₂ h₃ h₄ h₅ h₆ h₇ h₈ h₉ h₁₀ => exact .resume h₁ h₂ h₃ h₄ h₅ h₆ h₇ h₈ h₉ h₁₀

theorem inv_init : Inv machine.init where
  permits := ⟨by decide, by simp [machine, World.tokens], by simp [machine, World.tokens]⟩
  episodes := ⟨by simp [machine], by simp [machine], by
    simp [machine, World.changes, World.changeCount]⟩
  told := ⟨by simp [machine], by simp [machine], by simp [machine]⟩
  authorised := by simp [machine]

theorem inv_step (w : World) (a : Action) (w' : World) (h : Inv w)
    (hs : machine.step w a = some w') : Inv w' where
  permits := permits_effect h.permits (step_effect hs)
  episodes := episodes_effect h.episodes (step_effect hs)
  told := told_effect h.told h.episodes (step_effect hs)
  authorised := by
    rw [step_eq hs]
    exact authorised_step h.authorised a

theorem inv_of_reachable {w : World} (h : machine.Reachable w) : Inv w :=
  Machine.Reachable.invariant inv_init inv_step h

/-! ## The gate is safe -/

/-- A lease that can still change the gate owns the permit. -/
theorem owns_of_canChange {w : World} {i : Nat} (h : w.CanChange i) :
    ∃ lease, w.leases[i]? = some lease ∧ w.gate.ownsProbeLocked lease.token = true := by
  obtain ⟨lease, how, hi, _, hne⟩ := h
  refine ⟨lease, hi, ?_⟩
  by_contra hown
  exact hne (by rw [w.gate.settle_stale (by simpa using hown)])

theorem canChange_unique {w : World} (h : Permits w) {i j : Nat} (hi : w.CanChange i)
    (hj : w.CanChange j) : i = j := by
  obtain ⟨l, hl, hown⟩ := owns_of_canChange hi
  obtain ⟨l', hl', hown'⟩ := owns_of_canChange hj
  rw [VolumeSpaceGate.ownsProbeLocked_iff] at hown hown'
  have hti : w.tokens[i]? = some l.token := by simp [World.tokens, hl]
  have htj : w.tokens[j]? = some l'.token := by simp [World.tokens, hl']
  have hlen : i < w.tokens.length := (List.getElem?_eq_some_iff.1 hti).1
  refine (List.getElem?_inj hlen h.nodup).1 ?_
  rw [hti, htj, ← hown.2.2, ← hown'.2.2]

/-- Readiness comes back only through the owner's success. -/
theorem resumed_by_owner {w : World} {a : Action} (hwas : w.gate.phase ≠ .ready)
    (h : (w.perform a).gate.phase = .ready) :
    ∃ i, a = .settle i .success ∧ Moment.Owns ⟨a, w.gate, w.leases⟩ i := by
  cases a with
  | poll free =>
    simp only [World.perform, VolumeSpaceGate.poll] at h
    split_ifs at h
    exact absurd h hwas
  | registerJob jobId =>
    simp only [World.perform, World.publish] at h
    split_ifs at h <;> exact absurd (by simpa using h) hwas
  | unregisterJob jobId => exact absurd (by simpa [World.perform] using h) hwas
  | reportSpaceFailure e =>
    simp only [World.perform, World.publish, VolumeSpaceGate.reportSpaceFailure] at h
    split_ifs at h
    exact absurd h hwas
  | tryWait terminal => exact absurd (by simpa [World.perform] using h) hwas
  | waitFirst terminal => exact absurd (by simpa [World.perform] using h) hwas
  | waitAgain waiter terminal =>
    rw [World.perform] at h
    split_ifs at h
    · exact absurd (by simpa using h) hwas
    · exact absurd h hwas
  | querySuccess free => exact absurd h hwas
  | queryFailure e =>
    simp only [World.perform, VolumeSpaceGate.noteQueryFailure,
      VolumeSpaceGate.recordQueryFailureLocked] at h
    split_ifs at h
    exact absurd h hwas
  | settle i how =>
    rw [World.perform] at h
    split at h
    · exact absurd h hwas
    rename_i lease hlease
    split_ifs at h with hsettled
    · exact absurd h hwas
    · obtain ⟨rfl, hown⟩ := w.gate.settle_ready hwas h
      exact ⟨i, rfl, lease, hlease, by simpa using hsettled, hown⟩

theorem tokens_extend {w w' : World} (e : Effect w w') : w.tokens <+: w'.tokens := by
  cases e with
  | quiet _ silent => exact silent.tokens ▸ List.prefix_rfl
  | enroll _ _ ht => exact ht ▸ List.prefix_rfl
  | openEpisode _ _ _ _ _ _ _ ht => exact ht ▸ List.prefix_rfl
  | grant _ _ _ _ _ _ _ _ ht => exact ht ▸ List.prefix_append _ _
  | repermit _ _ _ _ _ _ _ silent => exact silent.tokens ▸ List.prefix_rfl
  | resume _ _ _ _ _ _ _ ht => exact ht ▸ List.prefix_rfl

theorem nextToken_le {w w' : World} (e : Effect w w') :
    w.gate.nextToken ≤ w'.gate.nextToken := by
  cases e with
  | quiet core => exact Nat.le_of_eq core.nextToken.symm
  | enroll _ core => exact Nat.le_of_eq core.nextToken.symm
  | openEpisode _ _ _ _ _ hn => exact Nat.le_of_eq hn.symm
  | grant _ _ _ _ _ _ hn => omega
  | repermit _ _ _ _ _ hn => exact Nat.le_of_eq hn.symm
  | resume _ _ _ _ _ hn => exact Nat.le_of_eq hn.symm

/-- The leases a world has handed out are inert in `w'`, however they are settled. -/
def World.InertIn (w w' : World) : Prop :=
  ∀ i < w.leases.length, ∃ lease, w'.leases[i]? = some lease ∧
    ∀ how, w'.gate.settle lease.token how = (w'.gate, [])

/-- A revoking step makes every lease issued before it inert for the rest of the run. -/
theorem inert_of_revokes {w w₁ w' : World} {a : Action} (hw : Permits w)
    (hrev : Moment.Revokes ⟨a, w.gate, w.leases⟩) (hs : machine.step w a = some w₁)
    (hrun : machine.Steps w₁ w') : w.InertIn w' := by
  have hfence : Fenced w.gate.nextToken w₁ := by
    refine ⟨nextToken_le (step_effect hs), fun hp => ?_⟩
    rw [step_eq hs] at hp
    exact absurd hp (phase_of_revokes hrev)
  have hkeep : Fenced w.gate.nextToken w' ∧ w.tokens <+: w'.tokens := by
    refine Machine.Steps.preserves (P := fun v => Fenced w.gate.nextToken v ∧ w.tokens <+: v.tokens)
      (fun v b v' hv hb => ?_) hrun ⟨hfence, tokens_extend (step_effect hs)⟩
    exact ⟨fenced_effect hv.1 (step_effect hb), hv.2.trans (tokens_extend (step_effect hb))⟩
  intro i hi
  have hlen : i < w.tokens.length := by simpa [World.tokens] using hi
  have htoken : w'.tokens[i]? = some w.tokens[i] := by
    rw [List.prefix_iff_getElem?.1 hkeep.2 i hlen]
  rw [World.tokens, List.getElem?_map, Option.map_eq_some_iff] at htoken
  obtain ⟨lease, hlease, htoken⟩ := htoken
  refine ⟨lease, hlease, fun how => VolumeSpaceGate.settle_stale _ (hkeep.1.stale ?_) how⟩
  rw [htoken]
  exact hw.token_lt _ (List.getElem_mem hlen)

/-- What holds in every reachable state of the gate, and of every step from it. -/
structure Safe (w : World) : Prop where
  /-- At most one outstanding lease can change the gate. -/
  oneLease : ∀ i j, w.CanChange i → w.CanChange j → i = j
  /-- Only `report_success` on the owning lease makes the volume ready. -/
  ready : ∀ a w', machine.step w a = some w' → w.gate.phase ≠ .ready → w'.gate.phase = .ready →
    ∃ i, a = .settle i .success ∧ Moment.Owns ⟨a, w.gate, w.leases⟩ i
  /-- Leases issued before a revoking step are inert ever after. -/
  inert : ∀ a w₁ w', Moment.Revokes ⟨a, w.gate, w.leases⟩ → machine.step w a = some w₁ →
    machine.Steps w₁ w' → w.InertIn w'
  /-- A permit, taken or not, goes back to a positive poll newer than every revocation. -/
  permit : w.gate.phase = .probing → Authorised w.history
  /-- The real changes are blocked 1, resumed 1, blocked 2, … -/
  alternate : w.changes = (List.range w.changeCount).map alternation
  /-- While the volume is not ready, each registered job was named once since it registered. -/
  named : w.gate.phase ≠ .ready → ∀ j ∈ w.gate.affectedJobs, (w.namings j).length = 1

theorem gate_safe {w : World} (h : machine.Reachable w) : Safe w := by
  have hinv := inv_of_reachable h
  refine ⟨fun i j => canChange_unique hinv.permits, fun a w' hs hwas hready => ?_,
    fun a w₁ w' => inert_of_revokes hinv.permits, hinv.authorised, hinv.episodes.changes,
    hinv.told.once⟩
  rw [step_eq hs] at hready
  exact resumed_by_owner hwas hready

/-- A full volume, a probe whose permit a failed query revokes, and a second probe that succeeds. -/
def revokedProbe : List Action :=
  [.registerJob "job", .reportSpaceFailure 112, .poll 4096, .tryWait false, .queryFailure 21,
    .poll 8192, .tryWait false, .settle 0 .success, .settle 1 .success]

theorem revokedProbe_safe : ∃ w, machine.exec machine.init revokedProbe = some w ∧ Safe w ∧
    w.changes = [(.blocked, 1), (.resumed, 1)] := by
  refine ⟨_, rfl, gate_safe (@Machine.Reachable.of_exec _ _ _ _ revokedProbe rfl), by decide⟩

end Sunpack.SpaceGate
