import Sunpack.PathLease.Calls
import Sunpack.PathLease.Effects

/-!
# Calls that wait

What holds of one call between its steps (`Linked`): while its waiter is pending it is asleep, and
its owner keeps only what other leases pin.
-/

namespace Sunpack.PathLease

open Lib

variable {names : PathNames} {Owner Lease : Type} [DecidableEq Owner] [DecidableEq Lease]

structure Linked (r : Registry names Owner Lease) (call : Call names Owner Lease) : Prop where
  nodup : (call.prepared.map (·.key)).Nodup
  known : ∀ waiter since blockers, call.phase = .waiting waiter since blockers →
    waiter < r.waiters.futures.length ∧ call.first = false
  left : ∀ waiter, call.phase = .leaving waiter →
    waiter < r.waiters.futures.length ∧ ¬ r.Pending waiter
  fresh : ∀ l, call.request.lease = some l → call.first = false →
    (r.pinning.pinsOf call.request.owner).get? l = none
  asleep : ∀ waiter since blockers, call.phase = .waiting waiter since blockers →
    r.Pending waiter → r.Asleep call.request.owner call.prepared waiter since blockers
  kept : ∀ waiter since blockers, call.phase = .waiting waiter since blockers → r.Pending waiter →
    ∀ k p, r.table.Holds call.request.owner k p →
      0 < r.pinning.pinCounts.countAt call.request.owner k

variable {r r' r₁ : Registry names Owner Lease} {call : Call names Owner Lease} {owner : Owner}
  {lease : Lease} {gone : Text → Prop} {prepared : List (LeasePath names)}

/-- Pins go only with the keys that go, and no lease id is pinned anew. -/
structure Loosens (pinning : PinTable Owner Lease) (owner : Owner) (gone : Text → Prop)
    (pinning' : PinTable Owner Lease) : Prop where
  counts : ∀ o k, 0 < pinning.pinCounts.countAt o k →
    0 < pinning'.pinCounts.countAt o k ∨ (o = owner ∧ gone k)
  pins : ∀ o l, (pinning.pinsOf o).get? l = none → (pinning'.pinsOf o).get? l = none

theorem Loosens.refl (pinning : PinTable Owner Lease) (owner : Owner) (gone : Text → Prop) :
    Loosens pinning owner gone pinning :=
  ⟨fun _ _ => .inl, fun _ _ => id⟩

theorem Loosens.forget {pinning : PinTable Owner Lease} (hcounted : pinning.Counted)
    (owner : Owner) : Loosens pinning owner (fun _ => True) (pinning.forget owner) where
  counts o k hpos := by
    by_cases ho : o = owner
    · exact .inr ⟨ho, trivial⟩
    · obtain ⟨l, keys, hget, hmem⟩ := hcounted.pinned_iff.1 hpos
      refine .inl ((hcounted.forget owner).pinned_iff.2 ⟨l, keys, ?_, hmem⟩)
      rwa [PinTable.pinsOf_forget, if_neg ho]
  pins o l hnone := by
    rw [PinTable.pinsOf_forget]
    split_ifs
    · rfl
    · exact hnone

/-- An unpinned key is pinned by another lease, or its count is gone. -/
theorem Loosens.unpin {pinning pinning' : PinTable Owner Lease} (hcounted : pinning.Counted)
    (hcounted' : pinning'.Counted)
    (hpins : ∀ o l, (pinning'.pinsOf o).get? l =
      if o = owner ∧ l = lease then none else (pinning.pinsOf o).get? l)
    (hgone : ∀ k, (∃ keys, (pinning.pinsOf owner).get? lease = some keys ∧ k ∈ keys) →
      0 < pinning'.pinCounts.countAt owner k ∨ gone k) :
    Loosens pinning owner gone pinning' where
  counts o k hpos := by
    obtain ⟨l, keys, hget, hmem⟩ := hcounted.pinned_iff.1 hpos
    by_cases hboth : o = owner ∧ l = lease
    · obtain ⟨rfl, rfl⟩ := hboth
      exact (hgone k ⟨keys, hget, hmem⟩).imp id fun h => ⟨rfl, h⟩
    · refine .inl (hcounted'.pinned_iff.2 ⟨l, keys, ?_, hmem⟩)
      rw [hpins, if_neg hboth, hget]
  pins o l hnone := by
    rw [hpins]
    split_ifs
    · rfl
    · exact hnone

/-- Paths are given up. -/
theorem Linked.givesUp (h : Linked r call) (hgives : r.GivesUp owner gone r')
    (hloosens : Loosens r.pinning owner gone r'.pinning) : Linked r' call := by
  refine ⟨h.nodup, fun waiter since blockers hphase => ?_, fun waiter hphase => ?_,
    fun l hl hfirst => ?_, fun waiter since blockers hphase hpend => ?_,
    fun waiter since blockers hphase hpend k p hp => ?_⟩
  · obtain ⟨hlt, hfirst⟩ := h.known waiter since blockers hphase
    exact ⟨hgives.length ▸ hlt, hfirst⟩
  · obtain ⟨hlt, hdone⟩ := h.left waiter hphase
    exact ⟨hgives.length ▸ hlt, fun hpend => hdone (hgives.pending waiter hpend)⟩
  · exact hloosens.pins _ l (h.fresh l hl hfirst)
  · exact hgives.asleep hpend
      (h.asleep waiter since blockers hphase (hgives.pending waiter hpend))
  · obtain ⟨hold, hstays⟩ := (hgives.holds _ k p).1 hp
    have hpos := h.kept waiter since blockers hphase (hgives.pending waiter hpend) k p hold
    exact (hloosens.counts _ k hpos).resolve_right hstays

/-- Another owner claims, or this one and then all it has is pinned. -/
theorem Linked.claim (h : Linked r call) (hclaims : r.table.Claims owner prepared r'.table)
    (hwaiters : r'.waiters = r.waiters)
    (hcounts : ∀ o ≠ owner, ∀ k, 0 < r.pinning.pinCounts.countAt o k →
      0 < r'.pinning.pinCounts.countAt o k)
    (hfresh : ∀ l, call.request.lease = some l → call.first = false →
      (r'.pinning.pinsOf call.request.owner).get? l = none)
    (hsettled : ∀ waiter since blockers, call.phase = .waiting waiter since blockers →
      r.Pending waiter → call.request.owner = owner →
      ∀ k p, r'.table.Holds owner k p → 0 < r'.pinning.pinCounts.countAt owner k) :
    Linked r' call := by
  have hpending (waiter : Nat) (hpend : r'.Pending waiter) : r.Pending waiter := by
    rwa [Registry.Pending, hwaiters] at hpend
  refine ⟨h.nodup, fun waiter since blockers hphase => ?_, fun waiter hphase => ?_, hfresh,
    fun waiter since blockers hphase hpend => ?_, fun waiter since blockers hphase hpend k p hp => ?_⟩
  · rw [hwaiters]
    exact h.known waiter since blockers hphase
  · rw [Registry.Pending, hwaiters]
    exact h.left waiter hphase
  · exact (h.asleep waiter since blockers hphase (hpending waiter hpend)).claims hclaims hwaiters
  · by_cases ho : call.request.owner = owner
    · rw [ho] at hp ⊢
      exact hsettled waiter since blockers hphase (hpending waiter hpend) ho k p hp
    · rw [hclaims.others _ ho] at hp
      exact hcounts _ ho k (h.kept waiter since blockers hphase (hpending waiter hpend) k p hp)

/-- A new waiter is registered. -/
theorem Linked.register (h : Linked r call) (hregistered : r.waiters.Registered)
    (bs : List Owner) : Linked { r with waiters := (r.waiters.registerWaiter bs).1 } call := by
  have hlength : (r.waiters.registerWaiter bs).1.futures.length = r.waiters.futures.length + 1 := by
    show (r.waiters.futures ++ [FutureState.pending]).length = _
    rw [List.length_append, List.length_singleton]
  have hpending (waiter : Nat) (hlt : waiter < r.waiters.futures.length)
      (hpend : ({ r with waiters := (r.waiters.registerWaiter bs).1 } :
        Registry names Owner Lease).Pending waiter) : r.Pending waiter := by
    have hget : (r.waiters.futures ++ [FutureState.pending])[waiter]? = some .pending := hpend
    rwa [List.getElem?_append_left hlt] at hget
  refine ⟨h.nodup, fun waiter since blockers hphase => ?_, fun waiter hphase => ?_, h.fresh,
    fun waiter since blockers hphase hpend => ?_, fun waiter since blockers hphase hpend => ?_⟩
  · obtain ⟨hlt, hfirst⟩ := h.known waiter since blockers hphase
    refine ⟨?_, hfirst⟩
    show waiter < (r.waiters.registerWaiter bs).1.futures.length
    omega
  · obtain ⟨hlt, hdone⟩ := h.left waiter hphase
    refine ⟨?_, fun hpend => hdone (hpending waiter hlt hpend)⟩
    show waiter < (r.waiters.registerWaiter bs).1.futures.length
    omega
  · obtain ⟨hlt, -⟩ := h.known waiter since blockers hphase
    exact (h.asleep waiter since blockers hphase (hpending waiter hlt hpend)).register hregistered bs
  · obtain ⟨hlt, -⟩ := h.known waiter since blockers hphase
    exact h.kept waiter since blockers hphase (hpending waiter hlt hpend)

/-- Some waiters are done or unregistered; the pending ones are as before. -/
theorem Linked.settle (h : Linked r call) {waiters : Waiters Owner}
    (hlength : waiters.futures.length = r.waiters.futures.length)
    (hpending : ∀ n, waiters.futures[n]? = some .pending → r.Pending n)
    (hblockers : ∀ waiter since blockers, call.phase = .waiting waiter since blockers →
      waiters.futures[waiter]? = some .pending →
      waiters.waiterBlockers.get? waiter = r.waiters.waiterBlockers.get? waiter) :
    Linked { r with waiters := waiters } call := by
  refine ⟨h.nodup, fun waiter since blockers hphase => ?_, fun waiter hphase => ?_, h.fresh,
    fun waiter since blockers hphase hpend => ?_, fun waiter since blockers hphase hpend => ?_⟩
  · show waiter < waiters.futures.length ∧ _
    rw [hlength]
    exact h.known waiter since blockers hphase
  · obtain ⟨hlt, hdone⟩ := h.left waiter hphase
    exact ⟨hlength ▸ hlt, fun hpend => hdone (hpending waiter hpend)⟩
  · have hasleep := h.asleep waiter since blockers hphase (hpending waiter hpend)
    refine ⟨?_, hasleep.nonempty, hasleep.since_le, hasleep.quiet, hasleep.blocked⟩
    exact (hblockers waiter since blockers hphase hpend).trans hasleep.registered
  · exact h.kept waiter since blockers hphase (hpending waiter hpend)

/-- A call goes to sleep on a new waiter. -/
theorem Linked.sleep {since : Nat} {blockers : List Owner} (hnodup : (call.prepared.map (·.key)).Nodup)
    (hphase : call.phase = .waiting r.waiters.futures.length since blockers)
    (hfirst : call.first = false)
    (hasleep : Registry.Asleep { r with waiters := (r.waiters.registerWaiter blockers).1 }
      call.request.owner call.prepared r.waiters.futures.length since blockers)
    (hfresh : ∀ l, call.request.lease = some l →
      (r.pinning.pinsOf call.request.owner).get? l = none)
    (hkept : ∀ k p, r.table.Holds call.request.owner k p →
      0 < r.pinning.pinCounts.countAt call.request.owner k) :
    Linked { r with waiters := (r.waiters.registerWaiter blockers).1 } call := by
  refine ⟨hnodup, fun waiter since' bs h => ?_, fun waiter h => absurd (hphase.symm.trans h) (by simp),
    fun l hl _ => hfresh l hl, fun waiter since' bs h _ => ?_, fun _ _ _ _ _ => hkept⟩
  · obtain ⟨rfl, -, -⟩ := Phase.waiting.inj (hphase.symm.trans h)
    refine ⟨?_, hfirst⟩
    show _ < (r.waiters.futures ++ [FutureState.pending]).length
    rw [List.length_append]
    exact Nat.lt_succ_self _
  · obtain ⟨rfl, rfl, rfl⟩ := Phase.waiting.inj (hphase.symm.trans h)
    exact hasleep

/-- A call before a pass. -/
theorem Linked.ready (hnodup : (call.prepared.map (·.key)).Nodup) (hphase : call.phase = .ready)
    (hfresh : ∀ l, call.request.lease = some l → call.first = false →
      (r.pinning.pinsOf call.request.owner).get? l = none) : Linked r call where
  nodup := hnodup
  known _ _ _ h := absurd (hphase.symm.trans h) (by simp)
  left _ h := absurd (hphase.symm.trans h) (by simp)
  fresh := hfresh
  asleep _ _ _ h := absurd (hphase.symm.trans h) (by simp)
  kept _ _ _ h := absurd (hphase.symm.trans h) (by simp)

end Sunpack.PathLease
