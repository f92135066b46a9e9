import Sunpack.ResourceScope.Model

/-!
# A scope that closes stays closed

While no promotion ends during a call of `close` or `aclose`, a call that has begun and not failed
lets no operation and no resource in, and a closed scope has no operation left and every resource
released once.
-/

namespace Sunpack.ResourceScope

open Lib

variable {s s' : State}

/-! ## The registry -/

/-- The record of a resource is in the registry and in the scope until it is released. -/
def Tracked (s : State) (id : ResourceId) : Prop :=
  if id ∈ s.registered then
    id ∈ s.resourceIds ∧ s.resources id ≠ none ∧ s.releases id = 0 ∨
      id ∉ s.resourceIds ∧ s.resources id = none ∧ s.releases id = 1
  else id ∉ s.resourceIds ∧ s.resources id = none ∧ s.releases id = 0

structure Registry (s : State) : Prop where
  tracked : ∀ id, Tracked s id
  nodup : s.resourceIds.Nodup
  /-- Who is in a callback has the record. -/
  holder : ∀ (index : Nat) (id : ResourceId) (todo : List ResourceId) (failed : Bool),
    s.calls[index]? = some (.inCallback id todo failed) →
      s.resources id = some (.releasing (.call index))

namespace Registry

theorem setPhase (h : Registry s) {index : Nat} {phase : Phase}
    (hphase : ∀ id todo failed, phase = .inCallback id todo failed →
      s.resources id = some (.releasing (.call index))) : Registry (s.setPhase index phase) := by
  refine ⟨h.tracked, h.nodup, fun index' id todo failed hcall => ?_⟩
  simp only [State.setPhase, List.getElem?_set] at hcall
  split_ifs at hcall with hindex hlt
  · rw [← hindex]
    exact hphase id todo failed (Option.some.inj hcall)
  · exact h.holder index' id todo failed hcall

theorem append (h : Registry s) {phase : Phase}
    (hphase : ∀ id todo failed, phase ≠ .inCallback id todo failed) (scope : ScopeState) :
    Registry { s with scope := scope, calls := s.calls ++ [phase] } := by
  refine ⟨h.tracked, h.nodup, fun index id todo failed hcall => ?_⟩
  rcases lt_or_ge index s.calls.length with hlt | hge
  · rw [List.getElem?_append_left hlt] at hcall
    exact h.holder index id todo failed hcall
  · rw [List.getElem?_append_right hge, List.getElem?_singleton] at hcall
    split_ifs at hcall
    exact absurd (Option.some.inj hcall) (hphase id todo failed)

theorem register (h : Registry s) {id : ResourceId} (hid : id ∉ s.registered) :
    Registry
      { s with
        resourceIds := s.resourceIds ++ [id]
        resources := Function.update s.resources id (some .active)
        registered := s.registered ++ [id] } := by
  have hfresh := h.tracked id
  rw [Tracked, if_neg hid] at hfresh
  refine ⟨fun id' => ?_, ?_, fun index id' todo failed hcall => ?_⟩
  · have hold := h.tracked id'
    unfold Tracked at hold ⊢
    by_cases heq : id' = id
    · subst heq
      rw [if_pos (List.mem_append_right _ List.mem_cons_self)]
      exact .inl ⟨List.mem_append_right _ List.mem_cons_self, by simp, hfresh.2.2⟩
    · simpa [heq, Function.update_of_ne heq] using hold
  · rw [List.nodup_append]
    refine ⟨h.nodup, List.nodup_singleton _, fun a ha b hb heq => ?_⟩
    rw [List.mem_singleton.1 hb] at heq
    exact hfresh.1 (heq ▸ ha)
  · have hheld := h.holder index id' todo failed hcall
    have hne : id' ≠ id := by
      rintro rfl
      rw [hfresh.2.1] at hheld
      cases hheld
    show Function.update s.resources id (some .active) id' = _
    rw [Function.update_of_ne hne]
    exact hheld

theorem startRelease (h : Registry s) {releaser : Releaser} {id : ResourceId}
    (hstart : s.startRelease releaser id = some s') :
    Registry s' ∧ s' = { s with resources := s'.resources } ∧
      s'.resources id = some (.releasing releaser) := by
  obtain ⟨state, hstate, hfree, hs'⟩ : ∃ state, s.resources id = some state ∧
      (∀ r, state ≠ .releasing r) ∧
      s' = { s with resources := Function.update s.resources id (some (.releasing releaser)) } := by
    unfold State.startRelease at hstart
    cases hres : s.resources id with
    | none =>
      rw [hres] at hstart
      cases hstart
    | some state =>
      rw [hres] at hstart
      cases state with
      | active => exact ⟨.active, rfl, fun r hr => (by cases hr), (Option.some.inj hstart).symm⟩
      | releaseFailed =>
        exact ⟨.releaseFailed, rfl, fun r hr => (by cases hr), (Option.some.inj hstart).symm⟩
      | releasing r => cases hstart
  subst hs'
  refine ⟨⟨fun id' => ?_, h.nodup, fun index id' todo failed hcall => ?_⟩, rfl,
    Function.update_self _ _ _⟩
  · have hold := h.tracked id'
    unfold Tracked at hold ⊢
    by_cases heq : id' = id
    · subst heq
      simpa [hstate] using hold
    · simpa [Function.update_of_ne heq] using hold
  · have hheld := h.holder index id' todo failed hcall
    have hne : id' ≠ id := by
      rintro rfl
      rw [hheld] at hstate
      exact hfree _ (Option.some.inj hstate).symm
    show Function.update s.resources id (some (.releasing releaser)) id' = _
    rw [Function.update_of_ne hne]
    exact hheld

/-- The callback of a record that nobody else has ends. -/
theorem finishRelease (h : Registry s) {id : ResourceId} (ok : Bool)
    (hstate : s.resources id ≠ none)
    (hfree : ∀ (index : Nat) (todo : List ResourceId) (failed : Bool),
      s.calls[index]? ≠ some (.inCallback id todo failed)) :
    Registry (s.finishRelease id ok) := by
  have hid := h.tracked id
  unfold State.finishRelease
  cases ok with
  | false =>
    refine ⟨fun id' => ?_, h.nodup, fun index id' todo failed hcall => ?_⟩
    · have hold := h.tracked id'
      unfold Tracked at hold ⊢
      by_cases heq : id' = id
      · subst heq
        simpa [hstate] using hold
      · simpa [Function.update_of_ne heq] using hold
    · have hne : id' ≠ id := by
        rintro rfl
        exact hfree index todo failed hcall
      simpa [Function.update_of_ne hne] using h.holder index id' todo failed hcall
  | true =>
    have hregistered : id ∈ s.registered := by
      by_contra hnot
      rw [Tracked, if_neg hnot] at hid
      exact hstate hid.2.1
    rw [Tracked, if_pos hregistered] at hid
    obtain ⟨hmem, _, hzero⟩ : id ∈ s.resourceIds ∧ s.resources id ≠ none ∧ s.releases id = 0 :=
      hid.resolve_right fun hgone => hstate hgone.2.1
    refine ⟨fun id' => ?_, h.nodup.erase id, fun index id' todo failed hcall => ?_⟩
    · have hold := h.tracked id'
      unfold Tracked at hold ⊢
      by_cases heq : id' = id
      · subst heq
        simp [hregistered, h.nodup.not_mem_erase, hzero]
      · simpa [Function.update_of_ne heq, List.mem_erase_of_ne heq] using hold
    · have hne : id' ≠ id := by
        rintro rfl
        exact hfree index todo failed hcall
      simpa [Function.update_of_ne hne] using h.holder index id' todo failed hcall

theorem exitOperation (h : Registry s) : Registry s.exitOperation := by
  unfold State.exitOperation
  simp only
  split_ifs
  · refine ⟨h.tracked, h.nodup, fun index id todo failed hcall => ?_⟩
    rw [List.getElem?_map, Option.map_eq_some_iff] at hcall
    obtain ⟨phase, hphase, hwoken⟩ := hcall
    cases phase with
    | inCallback id' todo' failed' =>
      have heq : Phase.inCallback id' todo' failed' = .inCallback id todo failed := hwoken
      exact h.holder index id todo failed (heq ▸ hphase)
    | _ => cases hwoken
  · exact ⟨h.tracked, h.nodup, h.holder⟩

theorem advance (h : Registry s) {index : Nat} {ok : Bool} {phase : Phase}
    (hcall : s.calls[index]? = some phase) (hstep : s.advance index ok phase = some s') :
    Registry s' := by
  have hset {phase : Phase} (hphase : ∀ id todo failed, phase ≠ .inCallback id todo failed) :
      Registry (s.setPhase index phase) :=
    h.setPhase fun id todo failed heq => absurd heq (hphase id todo failed)
  cases phase with
  | waiting =>
    rw [State.advance] at hstep
    split_ifs at hstep
    exact Option.some.inj hstep ▸ hset (by simp)
  | awaiting set nonblocking =>
    rw [State.advance] at hstep
    split_ifs at hstep <;> exact Option.some.inj hstep ▸ hset (by simp)
  | checking =>
    rw [State.advance] at hstep
    refine Option.some.inj hstep ▸ hset ?_
    split_ifs <;> simp
  | returned => cases hstep
  | raised => cases hstep
  | inCallback id todo failed =>
    have hstate := h.holder index id todo failed hcall
    have hcommute : s' =
        (s.setPhase index (.releasing todo (failed || !ok))).finishRelease id ok := by
      rw [← Option.some.inj hstep]
      cases ok <;> rfl
    rw [hcommute]
    apply (hset (by simp)).finishRelease ok
    · show s.resources id ≠ none
      rw [hstate]
      exact Option.some_ne_none _
    · intro index' todo' failed' hcall'
      simp only [State.setPhase, List.getElem?_set] at hcall'
      split_ifs at hcall' with hindex hlt
      · cases hcall'
      · have hother := h.holder index' id todo' failed' hcall'
        rw [hstate, Option.some.injEq, ResourceState.releasing.injEq, Releaser.call.injEq] at hother
        exact hindex hother
  | releasing todo failed =>
    cases todo with
    | nil =>
      rw [State.advance] at hstep
      split_ifs at hstep
      · exact Option.some.inj hstep ▸ hset (by simp)
      · rw [← Option.some.inj hstep]
        have hreturned := hset (by simp : ∀ id todo failed, Phase.returned ≠ .inCallback id todo failed)
        exact ⟨hreturned.tracked, hreturned.nodup, hreturned.holder⟩
    | cons id todo =>
      rw [State.advance] at hstep
      cases hstart : s.startRelease (.call index) id with
      | none =>
        rw [hstart] at hstep
        exact Option.some.inj hstep ▸ hset (by simp)
      | some started =>
        rw [hstart] at hstep
        obtain ⟨hregistry, _, hstate⟩ := h.startRelease hstart
        refine Option.some.inj hstep ▸ hregistry.setPhase fun id' todo' failed' heq => ?_
        obtain ⟨rfl, _, _⟩ := Phase.inCallback.inj heq
        exact hstate

theorem step (h : Registry s) {a : Action} (hstep : s.step a = some s') : Registry s' := by
  cases a with
  | enterOperation =>
    rw [← Option.some.inj hstep]
    unfold State.enterOperation
    split_ifs
    · exact ⟨h.tracked, h.nodup, h.holder⟩
    · exact h
  | exitOperation =>
    rw [State.step] at hstep
    split_ifs at hstep
    exact Option.some.inj hstep ▸ h.exitOperation
  | register kind id =>
    rw [State.step] at hstep
    split_ifs at hstep with hid
    rw [← Option.some.inj hstep]
    unfold State.register
    split_ifs
    · exact h.register hid
    · exact h
  | beginPromotion ownOperations nonblocking =>
    rw [← Option.some.inj hstep]
    unfold State.beginPromotion
    split_ifs
    · exact h
    · exact h
    · exact ⟨h.tracked, h.nodup, h.holder⟩
    · exact ⟨h.tracked, h.nodup, h.holder⟩
  | promote ownOperations =>
    rw [State.step] at hstep
    split_ifs at hstep
    exact Option.some.inj hstep ▸ ⟨h.tracked, h.nodup, h.holder⟩
  | endPromotion =>
    rw [← Option.some.inj hstep]
    unfold State.endPromotion
    split_ifs
    · exact ⟨h.tracked, h.nodup, h.holder⟩
    · exact h
  | close nonblocking =>
    rw [← Option.some.inj hstep]
    unfold State.close
    split_ifs with hclosed hidle hblock <;> exact h.append (by simp) _
  | aclose nonblocking =>
    rw [← Option.some.inj hstep]
    unfold State.aclose
    split_ifs with hclosed hidle <;> exact h.append (by simp) _
  | advance index ok =>
    obtain ⟨phase, hcall, hadvance⟩ := Option.bind_eq_some_iff.1 hstep
    exact h.advance hcall hadvance
  | cancel index =>
    rw [State.step] at hstep
    split at hstep
    · exact Option.some.inj hstep ▸ h.setPhase (by simp)
    · cases hstep
  | startRelease id => exact (h.startRelease hstep).1
  | finishRelease id ok =>
    rw [State.step] at hstep
    split_ifs at hstep with hstate
    refine Option.some.inj hstep ▸ h.finishRelease ok ?_ fun index todo failed hcall => ?_
    · rw [hstate]
      exact Option.some_ne_none _
    · have hheld := h.holder index id todo failed hcall
      rw [hstate] at hheld
      cases hheld

end Registry

/-! ## Closing -/

/-- The call has seen the scope without operations. -/
def Phase.finishing : Phase → Bool
  | .releasing _ _ => true
  | .inCallback _ _ _ => true
  | _ => false

structure Closing (s : State) : Prop where
  shut : ∀ phase ∈ s.calls, phase ≠ .raised → s.scope ≠ .active
  returned : .returned ∈ s.calls → s.scope = .closed
  idle : ∀ phase ∈ s.calls, phase.finishing = true → s.activeOperations = 0
  closed : s.scope = .closed → s.activeOperations = 0 ∧ s.resourceIds = []

namespace Closing

theorem setPhase (h : Closing s) {index : Nat} {old phase : Phase}
    (hcall : s.calls[index]? = some old) (hold : old ≠ .raised)
    (hreturned : phase = .returned → s.scope = .closed)
    (hidle : phase.finishing = true → s.activeOperations = 0) : Closing (s.setPhase index phase) := by
  have hmem {p : Phase} (hp : p ∈ s.calls.set index phase) : p ∈ s.calls ∨ p = phase :=
    List.mem_or_eq_of_mem_set hp
  refine ⟨fun p hp hraised => ?_, fun hp => ?_, fun p hp hfinishing => ?_, h.closed⟩
  · exact h.shut old (List.mem_of_getElem? hcall) hold
  · rcases hmem hp with hp | hp
    · exact h.returned hp
    · exact hreturned hp.symm
  · rcases hmem hp with hp | rfl
    · exact h.idle p hp hfinishing
    · exact hidle hfinishing

/-- A call has begun: the scope is no longer open. -/
theorem append (h : Closing s) {phase : Phase} (scope : ScopeState) (hscope : scope ≠ .active)
    (hkept : s.scope = .closed ↔ scope = .closed) (hreturned : phase = .returned → scope = .closed)
    (hfinishing : phase.finishing = false) :
    Closing { s with scope := scope, calls := s.calls ++ [phase] } := by
  refine ⟨fun p hp _ => hscope, fun hp => ?_, fun p hp hp' => ?_, fun hclosed => ?_⟩
  · rcases List.mem_append.1 hp with hp | hp
    · exact hkept.1 (h.returned hp)
    · exact hreturned (List.mem_singleton.1 hp).symm
  · rcases List.mem_append.1 hp with hp | hp
    · exact h.idle p hp hp'
    · rw [List.mem_singleton.1 hp, hfinishing] at hp'
      cases hp'
  · exact h.closed (hkept.2 hclosed)

/-- While a scope is open no call is under way. -/
theorem raised_of_active (h : Closing s) (hactive : s.scope = .active) {phase : Phase}
    (hphase : phase ∈ s.calls) : phase = .raised := by
  by_contra hne
  exact h.shut phase hphase hne hactive

/-- Over an open scope anything may happen to the operations and the resources. -/
theorem of_active (h : Closing s) (hactive : s.scope = .active) (hcalls : s'.calls = s.calls)
    (hscope : s'.scope ≠ .closed) : Closing s' := by
  refine ⟨fun p hp hne => ?_, fun hp => ?_, fun p hp hfinishing => ?_, fun hclosed => ?_⟩
  · exact absurd (h.raised_of_active hactive (hcalls ▸ hp)) hne
  · exact absurd (h.raised_of_active hactive (hcalls ▸ hp)) (by simp)
  · have hraised := h.raised_of_active hactive (hcalls ▸ hp)
    rw [hraised] at hfinishing
    cases hfinishing
  · exact absurd hclosed hscope

theorem finishRelease (h : Closing s) (id : ResourceId) (ok : Bool) :
    Closing (s.finishRelease id ok) := by
  unfold State.finishRelease
  split_ifs
  · refine ⟨h.shut, h.returned, h.idle, fun hclosed => ⟨(h.closed hclosed).1, ?_⟩⟩
    show s.resourceIds.erase id = []
    rw [(h.closed hclosed).2]
    rfl
  · exact ⟨h.shut, h.returned, h.idle, h.closed⟩

theorem exitOperation (h : Closing s) : Closing s.exitOperation := by
  unfold State.exitOperation
  simp only
  have hzero (hidle : s.activeOperations = 0) : s.activeOperations - 1 = 0 := by omega
  split_ifs with hlast
  · have hmem {p : Phase} (hp : p ∈ s.calls.map State.wakeIdle) :
        ∃ q ∈ s.calls, (p = .raised ↔ q = .raised) ∧ (p = .returned ↔ q = .returned) := by
      obtain ⟨q, hq, rfl⟩ := List.mem_map.1 hp
      refine ⟨q, hq, ?_⟩
      cases q <;> simp [State.wakeIdle]
    refine ⟨fun p hp hne => ?_, fun hp => ?_, fun _ _ _ => hlast, fun hclosed =>
      ⟨hlast, (h.closed hclosed).2⟩⟩
    · obtain ⟨q, hq, hraised, _⟩ := hmem hp
      exact h.shut q hq (mt hraised.2 hne)
    · obtain ⟨q, hq, _, hreturned⟩ := hmem hp
      exact h.returned (hreturned.1 rfl ▸ hq)
  · exact ⟨h.shut, h.returned, fun p hp hfinishing => hzero (h.idle p hp hfinishing),
      fun hclosed => ⟨hzero (h.closed hclosed).1, (h.closed hclosed).2⟩⟩

theorem startRelease (h : Closing s) {releaser : Releaser} {id : ResourceId}
    (hstart : s.startRelease releaser id = some s') :
    Closing s' ∧ s'.calls = s.calls ∧ s'.activeOperations = s.activeOperations := by
  unfold State.startRelease at hstart
  split at hstart
  · cases hstart
  · cases hstart
  · rw [← Option.some.inj hstart]
    exact ⟨⟨h.shut, h.returned, h.idle, h.closed⟩, rfl, rfl⟩

theorem advance (h : Closing s) {index : Nat} {ok : Bool} {phase : Phase}
    (hcall : s.calls[index]? = some phase) (hstep : s.advance index ok phase = some s') :
    Closing s' := by
  have hmem := List.mem_of_getElem? hcall
  cases phase with
  | waiting =>
    rw [State.advance] at hstep
    split_ifs at hstep
    exact Option.some.inj hstep ▸ h.setPhase hcall (by simp) (by simp) (by simp [Phase.finishing])
  | awaiting set nonblocking =>
    rw [State.advance] at hstep
    split_ifs at hstep <;>
      exact Option.some.inj hstep ▸ h.setPhase hcall (by simp) (by simp) (by simp [Phase.finishing])
  | checking =>
    rw [State.advance] at hstep
    split_ifs at hstep with hidle
    · exact Option.some.inj hstep ▸ h.setPhase hcall (by simp) (by simp) fun _ => hidle
    · exact Option.some.inj hstep ▸ h.setPhase hcall (by simp) (by simp) (by simp [Phase.finishing])
  | returned => cases hstep
  | raised => cases hstep
  | inCallback id todo failed =>
    have hidle := h.idle _ hmem rfl
    rw [← Option.some.inj hstep]
    have hcall' : (s.finishRelease id ok).calls[index]? = some (.inCallback id todo failed) := by
      cases ok <;> exact hcall
    apply (h.finishRelease id ok).setPhase hcall' (by simp) (by simp)
    intro _
    cases ok <;> exact hidle
  | releasing todo failed =>
    have hidle := h.idle _ hmem rfl
    cases todo with
    | nil =>
      rw [State.advance] at hstep
      split_ifs at hstep with hfailed
      · exact Option.some.inj hstep ▸ h.setPhase hcall (by simp) (by simp) (by simp [Phase.finishing])
      · rw [Bool.or_eq_true, not_or, Bool.not_eq_true', Bool.not_eq_false,
          List.isEmpty_iff] at hfailed
        rw [← Option.some.inj hstep]
        refine ⟨fun _ _ _ => by simp [State.setPhase], fun _ => rfl, fun _ _ _ => hidle, fun _ =>
          ⟨hidle, hfailed.2⟩⟩
    | cons id todo =>
      rw [State.advance] at hstep
      cases hstart : s.startRelease (.call index) id with
      | none =>
        rw [hstart] at hstep
        exact Option.some.inj hstep ▸ h.setPhase hcall (by simp) (by simp) fun _ => hidle
      | some started =>
        rw [hstart] at hstep
        obtain ⟨hclosing, hcalls, hoperations⟩ := h.startRelease hstart
        rw [← Option.some.inj hstep]
        apply hclosing.setPhase (hcalls ▸ hcall) (by simp) (by simp)
        intro _
        rw [hoperations, hidle]

theorem step (h : Closing s) {a : Action} (hguard : Undisturbed s a) (hstep : s.step a = some s') :
    Closing s' := by
  cases a with
  | enterOperation =>
    rw [← Option.some.inj hstep]
    unfold State.enterOperation
    split_ifs with hactive
    · exact h.of_active hactive rfl (by simp [State.orRaise, hactive])
    · exact h
  | exitOperation =>
    rw [State.step] at hstep
    split_ifs at hstep
    exact Option.some.inj hstep ▸ h.exitOperation
  | register kind id =>
    rw [State.step] at hstep
    split_ifs at hstep
    rw [← Option.some.inj hstep]
    unfold State.register
    split_ifs with hactive
    · exact h.of_active hactive rfl (by simp [State.orRaise, hactive])
    · exact h
  | beginPromotion ownOperations nonblocking =>
    rw [← Option.some.inj hstep]
    unfold State.beginPromotion
    split_ifs with hactive
    · exact h
    · exact h
    · exact h.of_active (not_not.1 hactive) rfl (by simp [State.orRaise])
    · exact h.of_active (not_not.1 hactive) rfl (by simp [State.orRaise])
  | promote ownOperations =>
    rw [State.step] at hstep
    split_ifs at hstep
    exact Option.some.inj hstep ▸ ⟨h.shut, h.returned, h.idle, h.closed⟩
  | endPromotion =>
    rw [← Option.some.inj hstep]
    unfold State.endPromotion
    split_ifs with hquiescing
    · -- no call is under way, and none has returned, for the scope is not closed
      have hraised (p : Phase) (hp : p ∈ s.calls) : p = .raised := by
        apply (hguard p hp).resolve_left
        rintro rfl
        rw [h.returned hp] at hquiescing
        cases hquiescing
      refine ⟨fun p hp hne => absurd (hraised p hp) hne, fun hp => ?_, fun p hp hfinishing => ?_,
        fun hclosed => by cases hclosed⟩
      · exact absurd (hraised _ hp) (by simp)
      · rw [hraised p hp] at hfinishing
        cases hfinishing
    · exact h
  | close nonblocking =>
    rw [← Option.some.inj hstep]
    unfold State.close
    split_ifs with hclosed hidle hblock
    · exact h.append s.scope (by simp [hclosed]) Iff.rfl (fun _ => hclosed) rfl
    all_goals exact h.append .quiescing (by simp) (by simp [hclosed]) (by simp) rfl
  | aclose nonblocking =>
    rw [← Option.some.inj hstep]
    unfold State.aclose
    split_ifs with hclosed hidle
    · exact h.append s.scope (by simp [hclosed]) Iff.rfl (fun _ => hclosed) rfl
    all_goals exact h.append .quiescing (by simp) (by simp [hclosed]) (by simp) rfl
  | advance index ok =>
    obtain ⟨phase, hcall, hadvance⟩ := Option.bind_eq_some_iff.1 hstep
    exact h.advance hcall hadvance
  | cancel index =>
    rw [State.step] at hstep
    split at hstep
    · rename_i hcall
      exact Option.some.inj hstep ▸ h.setPhase hcall (by simp) (by simp) (by simp [Phase.finishing])
    · cases hstep
  | startRelease id => exact (h.startRelease hstep).1
  | finishRelease id ok =>
    rw [State.step] at hstep
    split_ifs at hstep
    exact Option.some.inj hstep ▸ h.finishRelease id ok

end Closing

/-! ## Runs -/

theorem registry_of_reachable {taskId : String} (h : (machine taskId).Reachable s) : Registry s := by
  refine h.invariant ?_ fun s a s' hs hstep => hs.step hstep
  refine ⟨fun id => ?_, List.nodup_nil, fun index id todo failed hcall => ?_⟩
  · exact (if_neg List.not_mem_nil).mpr ⟨List.not_mem_nil, rfl, rfl⟩
  · cases hcall

theorem closing_of_reachable {taskId : String}
    (h : ((machine taskId).restrict Undisturbed).Reachable s) : Closing s := by
  refine h.invariant ?_ fun s a s' hs hstep => ?_
  · refine ⟨fun p hp => ?_, fun hp => ?_, fun p hp => ?_, fun hclosed => by cases hclosed⟩
    all_goals exact absurd hp List.not_mem_nil
  · obtain ⟨hguard, hstep⟩ := Machine.restrict_step.1 hstep
    exact hs.step hguard hstep

/-- Once a call of `close` or `aclose` has begun and not failed, no operation and no resource gets
in; a closed scope has no operation, and each of its resources was released once. -/
theorem scope_spec {taskId : String} (h : ((machine taskId).restrict Undisturbed).Reachable s) :
    (∀ phase ∈ s.calls, phase ≠ .raised →
      (∃ e, s.enterOperation = .error e) ∧ ∀ kind id, ∃ e, s.register kind id = .error e) ∧
    (s.scope = .closed → s.activeOperations = 0 ∧ ∀ id ∈ s.registered, s.releases id = 1) := by
  have hclosing := closing_of_reachable h
  have hregistry := registry_of_reachable h.of_restrict
  refine ⟨fun phase hphase hne => ?_, fun hclosed => ?_⟩
  · have hshut := hclosing.shut phase hphase hne
    exact ⟨⟨_, if_neg hshut⟩, fun kind id => ⟨_, if_neg hshut⟩⟩
  · obtain ⟨hidle, hempty⟩ := hclosing.closed hclosed
    refine ⟨hidle, fun id hid => ?_⟩
    have htracked := hregistry.tracked id
    rw [Tracked, if_pos hid] at htracked
    rcases htracked with ⟨hmem, _⟩ | ⟨_, _, hreleased⟩
    · rw [hempty] at hmem
      exact absurd hmem List.not_mem_nil
    · exact hreleased

theorem step_undisturbed {taskId : String} (h : ((machine taskId).restrict Undisturbed).Reachable s)
    (a : Action) (hguard : Undisturbed s a) (hstep : s.step a = some s') :
    ((machine taskId).restrict Undisturbed).Reachable s' :=
  h.step a (Machine.restrict_step.2 ⟨hguard, hstep⟩)

/-- A resource and an operation, a promotion inside it, and a close that waits for the operation. -/
theorem scope_spec_waiting :
    ∃ s, ((machine "t").restrict Undisturbed).Reachable s ∧ s.scope = .closed ∧
      s.activeOperations = 0 ∧ s.releases 0 = 1 ∧ ∃ e, s.enterOperation = .error e := by
  have hinit : ((machine "t").restrict Undisturbed).Reachable { taskId := "t" } := .refl
  have hregister := step_undisturbed hinit (.register "other" 0) trivial rfl
  have henter := step_undisturbed hregister .enterOperation trivial rfl
  have hbegin := step_undisturbed henter (.beginPromotion 1 false) trivial rfl
  have hend := step_undisturbed hbegin .endPromotion
    (fun _ hp => absurd hp List.not_mem_nil) rfl
  have hclose := step_undisturbed hend (.close false) trivial rfl
  have hexit := step_undisturbed hclose .exitOperation trivial rfl
  have hwake := step_undisturbed hexit (.advance 0 true) trivial rfl
  have hcheck := step_undisturbed hwake (.advance 0 true) trivial rfl
  have hstart := step_undisturbed hcheck (.advance 0 true) trivial rfl
  have hfinish := step_undisturbed hstart (.advance 0 true) trivial rfl
  have hclosed := step_undisturbed hfinish (.advance 0 true) trivial rfl
  have hspec := scope_spec hclosed
  exact ⟨_, hclosed, rfl, (hspec.2 rfl).1, (hspec.2 rfl).2 0 (by decide),
    (hspec.1 .returned (by decide) (by decide)).1⟩

/-- A promotion that ends while a close is under way opens the scope again: an operation enters, and
the scope is closed around it. -/
theorem reopened_by_promotion :
    ∃ s, (machine "t").exec { taskId := "t" }
        [.beginPromotion 0 false, .close false, .endPromotion, .advance 0 true, .enterOperation,
          .advance 0 true] = some s ∧
      s.calls = [.returned] ∧ s.scope = .closed ∧ s.activeOperations = 1 :=
  ⟨_, rfl, rfl, rfl, rfl⟩

end Sunpack.ResourceScope
