import Sunpack.PathLease.Grants
import Sunpack.PathLease.Sleep

/-!
# Path leases over whole runs

While a call has paths that its owner holds already, `_claim` leaves the entries in the table as they
are. A path that was missing and is a directory by now is then granted as a directory and guarded as
the missing path it was. `Orderly` is the condition on a pass that claims; in runs that keep to it the
registry is safe in every state (`leases_safe`).
-/

namespace Sunpack.PathLease

open Lib

variable {names : PathNames} {Owner Lease : Type} [DecidableEq Owner] [DecidableEq Lease]

namespace World

/-- The call waits, and its waiter is not resolved. -/
def Sleeps (w : World names Owner Lease) (id : Nat) (call : Call names Owner Lease)
    (waiter since : Nat) (blockers : List Owner) : Prop :=
  w.calls.get? id = some call ∧ call.phase = .waiting waiter since blockers ∧
    w.registry.Pending waiter

/-- What was granted and not given back conflicts with nothing another owner has. -/
def Exclusive (w : World names Owner Lease) : Prop :=
  ∀ g ∈ w.grants, ∀ p ∈ g.paths,
    (∀ o ≠ g.owner, ∀ k q, w.registry.table.Holds o k q → ¬ Conflict p q) ∧
    ∀ g' ∈ w.grants, g'.owner ≠ g.owner → ∀ q ∈ g'.paths, ¬ Conflict p q

structure Safe (w : World names Owner Lease) : Prop where
  exclusive : w.Exclusive
  indexed : w.registry.table.Indexed
  counted : w.registry.pinning.Counted
  keepsPinned : ∀ id call waiter since blockers, w.Sleeps id call waiter since blockers →
    ∀ k p, w.registry.table.Holds call.request.owner k p →
      ∃ l keys, some l ≠ call.request.lease ∧
        (w.registry.pinning.pinsOf call.request.owner).get? l = some keys ∧ k ∈ keys
  awaited : ∀ id call waiter since blockers, w.Sleeps id call waiter since blockers →
    blockers ≠ [] ∧ w.registry.waiters.waiterBlockers.get? waiter = some blockers ∧
      ∀ b ∈ blockers, waiter ∈ w.registry.waiters.waitingFor b ∧
        b ∉ w.registry.table.gaveUp.drop since ∧
        b ∈ w.registry.table.blockingOwners call.request.owner call.prepared

/-! ## The condition -/

/-- The first pass of `replace` removes all paths of the owner before it claims. -/
def Restarts (call : Call names Owner Lease) : Prop :=
  call.request.lease = none ∧ call.first = true

/-- The key is pinned after the claim. -/
def PinnedAfter (w : World names Owner Lease) (call : Call names Owner Lease) (key : Text) : Prop :=
  (call.request.lease ≠ none ∧ key ∈ call.prepared.map (·.key)) ∨
    ¬ Restarts call ∧ ∃ l keys, call.request.lease ≠ some l ∧
      (w.registry.pinning.pinsOf call.request.owner).get? l = some keys ∧ key ∈ keys

/-- What is asked of a pass that claims. -/
structure Orderly (w : World names Owner Lease) (id : Nat) (call : Call names Owner Lease) :
    Prop where
  /-- Paths the owner holds already are in the table as the snapshot has them. -/
  recorded : ¬ Restarts call → ∀ q ∈ call.prepared, ∀ e,
    w.registry.table.Holds call.request.owner q.key e → Covers e q
  /-- No other `acquire` for this lease id is past its first pass. -/
  alone : ∀ l, call.request.lease = some l → ∀ id' call', id' ≠ id →
    w.calls.get? id' = some call' → call'.request.owner = call.request.owner →
      call'.request.lease = some l → call'.first = true
  /-- While another call of the owner waits, everything it has is pinned after the claim. -/
  settled : ∀ id' call' waiter since blockers, id' ≠ id →
    w.Sleeps id' call' waiter since blockers → call'.request.owner = call.request.owner →
      ∀ key, (key ∈ call.prepared.map (·.key) ∨
        (¬ Restarts call ∧ ∃ e, w.registry.table.Holds call.request.owner key e)) →
          w.PinnedAfter call key

/-- No other request works on the generation of a `replace`. -/
def Uncoalesced (w : World names Owner Lease) (call : Call names Owner Lease) : Prop :=
  match call.request with
  | .acquire .. => True
  | .replace owner _ coalesceExact deepDetect =>
    w.registry.exactOwner owner coalesceExact (call.version, deepDetect) = none

/-- The pass claims: nobody is in the way. -/
def Claimed (w : World names Owner Lease) (call : Call names Owner Lease) : Prop :=
  w.registry.table.blockingOwners call.request.owner call.prepared = [] ∧ w.Uncoalesced call

/-- A `replace` goes back to waiting. -/
def Rejoins (w : World names Owner Lease) (call : Call names Owner Lease) : Prop :=
  w.registry.table.blockingOwners call.request.owner call.prepared ≠ [] ∧ w.Uncoalesced call ∧
    call.request.lease = none ∧ call.first = false

/-- Every path of the owner is pinned. -/
def AllPinned (w : World names Owner Lease) (owner : Owner) : Prop :=
  ∀ key e, w.registry.table.Holds owner key e →
    ∃ l keys, (w.registry.pinning.pinsOf owner).get? l = some keys ∧ key ∈ keys

/-- The condition on a step. -/
def Guarded (w : World names Owner Lease) : Action Owner Lease → Prop
  | .pass id _ => ∀ call, w.calls.get? id = some call →
    (w.Claimed call → w.Orderly id call) ∧ (w.Rejoins call → w.AllPinned call.request.owner)
  | _ => True

/-! ## The invariant -/

structure Consistent (w : World names Owner Lease) : Prop where
  sound : w.registry.Sound
  backed : Backed w.registry.table w.registry.pinning w.grants
  linked : ∀ id call, w.calls.get? id = some call → Linked w.registry call

theorem consistent_init : Consistent ({} : World names Owner Lease) where
  sound := Registry.sound_empty
  backed := backed_empty
  linked _ _ h := absurd h (by simp)

variable {w w' : World names Owner Lease} {id : Nat} {call : Call names Owner Lease}

theorem Consistent.exclusive (h : w.Consistent) : w.Exclusive := by
  intro g hg p hp
  obtain ⟨e, he, hcovers⟩ := h.backed.covered g hg p hp
  constructor
  · intro o ho k q hq hconflict
    exact h.backed.apart _ _ _ _ _ _ (Ne.symm ho) he hq (hcovers.conflict hconflict)
  · intro g' hg' ho q hq hconflict
    obtain ⟨f, hf, hcovers'⟩ := h.backed.covered g' hg' q hq
    exact h.backed.apart _ _ _ _ _ _ (Ne.symm ho) he hf (hcovers.conflict_both hcovers' hconflict)

theorem Consistent.safe (h : w.Consistent) : w.Safe where
  exclusive := h.exclusive
  indexed := h.sound.indexed
  counted := h.sound.counted
  keepsPinned id call waiter since blockers hsleeps k p hp := by
    have hlinked := h.linked id call hsleeps.1
    have hpos := hlinked.kept waiter since blockers hsleeps.2.1 hsleeps.2.2 k p hp
    obtain ⟨l, keys, hget, hmem⟩ := h.sound.counted.pinned_iff.1 hpos
    refine ⟨l, keys, fun hl => ?_, hget, hmem⟩
    have hfirst := (hlinked.known waiter since blockers hsleeps.2.1).2
    rw [hlinked.fresh l hl.symm hfirst] at hget
    exact absurd hget (by simp)
  awaited id call waiter since blockers hsleeps := by
    have hasleep := (h.linked id call hsleeps.1).asleep waiter since blockers hsleeps.2.1 hsleeps.2.2
    refine ⟨hasleep.nonempty, hasleep.registered, fun b hb => ⟨?_, hasleep.quiet b hb, ?_⟩⟩
    · exact (h.sound.registered.agree b waiter).2 ⟨blockers, hasleep.registered, hb⟩
    · exact h.sound.indexed.mem_blockingOwners.2 (hasleep.blocked b hb)

/-- The call under an id ends. -/
theorem linked_erase {r : Registry names Owner Lease} {calls : Dict Nat (Call names Owner Lease)}
    (h : ∀ id' call', id' ≠ id → calls.get? id' = some call' → Linked r call') :
    ∀ id' call', (calls.erase id).get? id' = some call' → Linked r call' := by
  intro id' call' hget
  rw [Dict.get?_erase] at hget
  split_ifs at hget with hid
  exact h id' call' hid hget

/-- The call under an id goes on. -/
theorem linked_set {r : Registry names Owner Lease} {calls : Dict Nat (Call names Owner Lease)}
    (h : ∀ id' call', id' ≠ id → calls.get? id' = some call' → Linked r call')
    (hcall : Linked r call) :
    ∀ id' call', (calls.set id call).get? id' = some call' → Linked r call' := by
  intro id' call' hget
  rw [Dict.get?_set] at hget
  split_ifs at hget with hid
  · exact Option.some.inj hget ▸ hcall
  · exact h id' call' hid hget

/-! ## Steps -/

/-- A pass ends its call without touching the registry. -/
theorem Consistent.end (h : w.Consistent) (id : Nat) :
    Consistent { w with calls := w.calls.erase id } :=
  ⟨h.sound, h.backed, linked_erase fun id' call' _ => h.linked id' call'⟩

theorem Consistent.start (h : w.Consistent) (request : Request Owner Lease) (fs : FileSystem)
    (refresh : Bool) : Consistent { w with calls := w.calls.set id (w.snapshot request fs refresh true) } :=
  ⟨h.sound, h.backed, linked_set (fun id' call' _ => h.linked id' call')
    (.ready (snapshotPaths_nodup _ _ _ _) rfl fun _ _ hfirst => Bool.noConfusion hfirst)⟩

theorem Consistent.resume (h : w.Consistent) (hget : w.calls.get? id = some call)
    (fs : FileSystem) : Consistent
      { w with calls := w.calls.set id (w.snapshot call.request fs true call.first) } :=
  ⟨h.sound, h.backed, linked_set (fun id' call' _ => h.linked id' call')
    (.ready (snapshotPaths_nodup _ _ _ _) rfl (h.linked id call hget).fresh)⟩

theorem Consistent.cancel (h : w.Consistent) (hget : w.calls.get? id = some call)
    {waiter since : Nat} {blockers : List Owner}
    (hphase : call.phase = .waiting waiter since blockers) :
    Consistent
      { w with
        registry := { w.registry with waiters := w.registry.waiters.cancelWaiter waiter }
        calls := w.calls.set id { call with phase := .leaving waiter } } := by
  have hlength : (w.registry.waiters.cancelWaiter waiter).futures.length =
      w.registry.waiters.futures.length := Waiters.length_finish _ _ _
  have hfutures (n : Nat) : (w.registry.waiters.cancelWaiter waiter).futures[n]? = _ :=
    Waiters.getElem?_finish .cancelled w.registry.waiters.futures waiter n
  have hlinked := h.linked id call hget
  refine ⟨⟨h.sound.indexed, h.sound.counted, h.sound.registered.cancel waiter⟩, h.backed,
    linked_set (fun id' call' _ hget' => ?_) ?_⟩
  · refine (h.linked id' call' hget').settle hlength (fun n hpend => ?_) fun _ _ _ _ _ => rfl
    rw [hfutures] at hpend
    split_ifs at hpend
    · exact absurd hpend (by decide)
    · exact hpend
  · refine ⟨hlinked.nodup, by simp, fun waiter' hleaving => ?_, hlinked.fresh, by simp, by simp⟩
    obtain rfl := Phase.leaving.inj hleaving
    refine ⟨hlength ▸ (hlinked.known waiter since blockers hphase).1, fun hpend => ?_⟩
    have hpend' : (w.registry.waiters.cancelWaiter waiter).futures[waiter]? = some .pending := hpend
    rw [hfutures] at hpend'
    split_ifs at hpend' with hnow
    · exact absurd hpend' (by decide)
    · exact hnow ⟨rfl, hpend'⟩

theorem Consistent.leave (h : w.Consistent) (hget : w.calls.get? id = some call) {waiter : Nat}
    (hphase : call.phase = .leaving waiter) :
    Consistent
      { w with
        registry := { w.registry with waiters := w.registry.waiters.unregisterWaiter waiter }
        calls := w.calls.erase id } := by
  refine ⟨⟨h.sound.indexed, h.sound.counted, h.sound.registered.unregister waiter⟩, h.backed,
    linked_erase fun id' call' _ hget' => ?_⟩
  refine (h.linked id' call' hget').settle rfl (fun _ hpend => hpend) fun waiter' _ _ _ hpend => ?_
  show (w.registry.waiters.waiterBlockers.erase waiter).get? waiter' = _
  apply Dict.get?_erase_of_ne
  rintro rfl
  exact ((h.linked id call hget).left waiter' hphase).2 hpend

theorem Consistent.releaseLease (h : w.Consistent) {owner : Owner} {lease : Lease}
    {registry : Registry names Owner Lease}
    (hrun : w.registry.releaseLease owner lease = some registry) :
    Consistent
      { w with registry := registry, grants := releaseGrant w.grants owner lease } := by
  obtain ⟨r', idle, hrun', hsound, hunpins, hgives⟩ := h.sound.releaseLease owner lease
  rw [hrun] at hrun'
  obtain rfl := Option.some.inj hrun'
  refine ⟨hsound, h.backed.releaseLease hunpins hgives.holds, fun id call hget => ?_⟩
  refine (h.linked id call hget).givesUp hgives ?_
  refine .unpin h.sound.counted hunpins.counted hunpins.pins fun k hk => ?_
  obtain ⟨keys, hkeys, hmem⟩ := hk
  exact hunpins.pinned_or_idle keys hkeys k hmem

theorem Consistent.release (h : w.Consistent) {owner : Owner}
    {registry : Registry names Owner Lease} (hrun : w.registry.release owner = some registry) :
    Consistent { w with registry := registry, grants := releaseGrants w.grants owner } := by
  obtain ⟨r', hrun', hsound, hpinning, hgives⟩ := h.sound.release owner
  rw [hrun] at hrun'
  obtain rfl := Option.some.inj hrun'
  refine ⟨hsound, ?_, fun id call hget => ?_⟩
  · rw [hpinning]
    exact h.backed.release hgives.holds
  · refine (h.linked id call hget).givesUp hgives ?_
    rw [hpinning]
    exact .forget h.sound.counted owner

/-- Who was pinned by another lease, or by none, is pinned as before. -/
theorem get?_pinned {pinning pinned : PinTable Owner Lease} {owner : Owner} {lease : Lease}
    {keys : List Text}
    (hpins : ∀ o l, (pinned.pinsOf o).get? l =
      if o = owner ∧ l = lease then none else (pinning.pinsOf o).get? l) (o : Owner) (l : Lease) :
    ((pinned.pin owner lease keys).pinsOf o).get? l =
      if o = owner ∧ l = lease then some keys else (pinning.pinsOf o).get? l := by
  rw [PinTable.pinsOf_pin]
  by_cases ho : o = owner
  · subst ho
    rw [if_pos rfl, Dict.get?_set, hpins]
    by_cases hl : l = lease
    · rw [if_pos hl, if_pos ⟨rfl, hl⟩]
    · have hnot : ¬ (o = o ∧ l = lease) := fun h => hl h.2
      rw [if_neg hl, if_neg hnot, if_neg hnot]
  · have hnot : ¬ (o = owner ∧ l = lease) := fun h => ho h.1
    rw [if_neg ho, hpins, if_neg hnot, if_neg hnot]

theorem Consistent.acquire (h : w.Consistent) (hget : w.calls.get? id = some call)
    {owner : Owner} {paths absentPaths : List Text} {lease : Lease}
    (hrequest : call.request = .acquire owner paths lease absentPaths)
    (hguard : w.Claimed call → w.Orderly id call) (hstep : w.pass id call = some w') :
    w'.Consistent := by
  have hlinked := h.linked id call hget
  have howner : call.request.owner = owner := by rw [hrequest]; rfl
  have hlease : call.request.lease = some lease := by rw [hrequest]; rfl
  rw [World.pass, hrequest] at hstep
  simp only at hstep
  by_cases habsent : (absentError absentPaths call.prepared).isSome
  · rw [if_pos habsent] at hstep
    obtain rfl := Option.some.inj hstep
    exact h.end id
  rw [if_neg habsent] at hstep
  have hfresh (hfirst : call.first = false) :
      (w.registry.pinning.pinsOf owner).get? lease = none :=
    howner ▸ hlinked.fresh lease hlease hfirst
  obtain ⟨pinning, hcounted, hpins, hcases⟩ :=
    h.sound.acquirePass owner lease call.prepared call.first hfresh
  -- the history without the old lease of this id
  have hbacked : Backed w.registry.table pinning
      (if call.first then giveBack w.grants owner lease else w.grants) := by
    cases hfirst : call.first with
    | true => exact h.backed.unpin hpins
    | false =>
      refine h.backed.congr fun o l => ?_
      rw [hpins]
      split_ifs with hboth
      · rw [hboth.1, hboth.2, hfresh hfirst]
      · rfl
  have hunpinned : (pinning.pinsOf owner).get? lease = none := by rw [hpins, if_pos ⟨rfl, rfl⟩]
  rcases hcases with ⟨r', hrun, hacquires⟩ | ⟨r', r₁, blockers, hrun, hsleep, hpinning, hgives⟩
  · rw [hrun] at hstep
    obtain rfl := Option.some.inj hstep
    have huncoalesced : w.Uncoalesced call := by
      rw [Uncoalesced, hrequest]
      trivial
    have horderly := hguard ⟨howner ▸ hacquires.free, huncoalesced⟩
    have hrestarts : ¬ Restarts call := by
      rw [Restarts, hlease]
      simp
    have hclaimable : Claimable w.registry.table owner call.prepared :=
      ⟨h.sound.indexed.free hacquires.free, howner ▸ horderly.recorded hrestarts, hlinked.nodup⟩
    have hclaims : w.registry.table.Claims owner call.prepared r'.table := by
      rw [hacquires.table]
      exact LeaseTable.claim_spec h.sound.indexed (hclaimable.keys_free h.sound.indexed)
    have hpinned (o : Owner) (l : Lease) : (r'.pinning.pinsOf o).get? l =
        if o = owner ∧ l = lease then some (call.prepared.map (·.key))
        else (w.registry.pinning.pinsOf o).get? l := by
      rw [hacquires.pinned]
      exact get?_pinned hpins o l
    have hcounted' : r'.pinning.Counted := hacquires.pinned ▸ hcounted.pin hunpinned _
    refine ⟨⟨hclaims.indexed, hcounted', hacquires.waiters ▸ h.sound.registered⟩, ?_,
      linked_erase fun id' call' hid hget' => ?_⟩
    · refine hbacked.claim hclaimable hclaims (fun o l => ?_) fun l hl => ?_
      · by_cases hboth : o = owner ∧ l = lease
        · rw [hpinned, if_pos hboth, if_pos ⟨hboth.1, congrArg some hboth.2⟩]
        · have hnot : ¬ (o = owner ∧ some l = some lease) :=
            fun h => hboth ⟨h.1, Option.some.inj h.2⟩
          rw [hpinned, if_neg hboth, if_neg hnot, hpins, if_neg hboth]
      · rw [← Option.some.inj hl, hunpinned]
    · have hlinked' := h.linked id' call' hget'
      refine hlinked'.claim hclaims hacquires.waiters (fun o ho k hpos => ?_)
        (fun l hl hfirst => ?_) fun waiter since blockers hphase hpend ho k p hp => ?_
      · obtain ⟨l, keys, hkeys, hmem⟩ := h.sound.counted.pinned_iff.1 hpos
        refine hcounted'.pinned_iff.2 ⟨l, keys, ?_, hmem⟩
        have hnot : ¬ (o = owner ∧ l = lease) := fun h => ho h.1
        rw [hpinned, if_neg hnot, hkeys]
      · have hnot : ¬ (call'.request.owner = owner ∧ l = lease) := by
          rintro ⟨ho, rfl⟩
          rw [horderly.alone l hlease id' call' hid hget' (ho.trans howner.symm) hl] at hfirst
          exact absurd hfirst (by simp)
        rw [hpinned, if_neg hnot]
        exact hlinked'.fresh l hl hfirst
      · have hpinnedAfter : w.PinnedAfter call k := by
          refine horderly.settled id' call' waiter since blockers hid ⟨hget', hphase, hpend⟩
            (ho.trans howner.symm) k ?_
          rcases hclaims.origin k p hp with hold | hmem
          · exact .inr ⟨hrestarts, p, howner ▸ hold⟩
          · refine .inl ?_
            rw [← hclaims.indexed.keyed owner k p hp]
            exact List.mem_map_of_mem hmem
        rw [hcounted'.pinned_iff]
        rcases hpinnedAfter with ⟨-, hmem⟩ | ⟨-, l, keys, hother, hkeys, hmem⟩
        · exact ⟨lease, _, by rw [hpinned, if_pos ⟨rfl, rfl⟩], hmem⟩
        · have hnot : ¬ (owner = owner ∧ l = lease) := fun h => hother (h.2 ▸ hlease)
          refine ⟨l, keys, ?_, hmem⟩
          rw [hpinned, if_neg hnot]
          exact howner ▸ hkeys
  · rw [hrun] at hstep
    obtain rfl := Option.some.inj hstep
    obtain ⟨hfound, hnonempty, hsound, rfl⟩ := hsleep
    have hloosens : Loosens w.registry.pinning owner
        (fun k => pinning.pinCounts.countAt owner k = 0) r₁.pinning := by
      rw [hpinning]
      exact .unpin h.sound.counted hcounted hpins fun k _ => (Nat.eq_zero_or_pos _).symm
    have hblocked : ∀ b ∈ blockers, b ≠ owner ∧
        ∃ q ∈ call.prepared, ∃ k p, r₁.table.Holds b k p ∧ Blocks p q := by
      intro b hb
      obtain ⟨hne, q, hq, k, p, hp, hblocks⟩ :=
        h.sound.indexed.mem_blockingOwners.1 (hfound ▸ hb)
      exact ⟨hne, q, hq, k, p, (hgives.holds b k p).2 ⟨hp, fun h => hne h.1⟩, hblocks⟩
    obtain ⟨hsound', hasleep⟩ := hsound.registerWaiter hblocked hnonempty
    refine ⟨hsound', ?_, linked_set (fun id' call' _ hget' => ?_) ?_⟩
    · show Backed r₁.table r₁.pinning _
      rw [hpinning]
      exact hbacked.dropIdle hcounted hgives.holds
    · exact ((h.linked id' call' hget').givesUp hgives hloosens).register hsound.registered blockers
    · refine .sleep hlinked.nodup rfl rfl hasleep (fun l hl => ?_) fun k p hp => ?_
      · obtain rfl : lease = l := Option.some.inj hl
        show (r₁.pinning.pinsOf owner).get? lease = none
        rw [hpinning, hunpinned]
      · have hstays := ((hgives.holds owner k p).1 hp).2
        show 0 < r₁.pinning.pinCounts.countAt owner k
        rw [hpinning]
        exact Nat.pos_of_ne_zero fun h => hstays ⟨rfl, h⟩

/-- What is left after the first section of `replace`, or of the world if this is a later pass. -/
structure Restarted (w : World names Owner Lease) (first : Bool) (owner : Owner)
    (r : Registry names Owner Lease) : Prop where
  sound : r.Sound
  backed : Backed r.table r.pinning (if first then releaseGrants w.grants owner else w.grants)
  linked : ∀ call, Linked w.registry call → Linked r call
  pending : ∀ n, r.Pending n → w.registry.Pending n
  blockers : ∀ prepared, r.table.blockingOwners owner prepared = [] ↔
    w.registry.table.blockingOwners owner prepared = []
  exactOwner : ∀ coalesceExact generation, r.exactOwner owner coalesceExact generation =
    w.registry.exactOwner owner coalesceExact generation
  nothing : first = true → ∀ k p, ¬ r.table.Holds owner k p
  same : first = false → r = w.registry

theorem Consistent.releaseFirst (h : w.Consistent) (first : Bool) (owner : Owner) :
    ∃ r, w.registry.releaseFirst first owner = some r ∧ w.Restarted first owner r := by
  cases first with
  | false =>
    exact ⟨w.registry, rfl, h.sound, h.backed, fun _ => id, fun _ => id, fun _ => Iff.rfl,
      fun _ _ => rfl, by simp, fun _ => rfl⟩
  | true =>
    obtain ⟨r, hrun, hsound, hpinning, hgives⟩ := h.sound.release owner
    refine ⟨r, hrun, hsound, ?_, fun call hlinked => hlinked.givesUp hgives ?_, hgives.pending,
      fun prepared => hgives.blockingOwners_nil h.sound.indexed,
      fun c g => Registry.exactOwner_release hrun c g, fun _ k p hp => ?_, by simp⟩
    · rw [hpinning]
      exact h.backed.release hgives.holds
    · rw [hpinning]
      exact .forget h.sound.counted owner
    · exact ((hgives.holds owner k p).1 hp).2 ⟨rfl, trivial⟩

theorem Consistent.replace (h : w.Consistent) (hget : w.calls.get? id = some call)
    {owner : Owner} {paths : List Text} {coalesceExact deepDetect : Bool}
    (hrequest : call.request = .replace owner paths coalesceExact deepDetect)
    (hguard : w.Claimed call → w.Orderly id call)
    (hrejoins : w.Rejoins call → w.AllPinned call.request.owner)
    (hstep : w.pass id call = some w') : w'.Consistent := by
  have hlinked := h.linked id call hget
  have howner : call.request.owner = owner := by rw [hrequest]; rfl
  have hlease : call.request.lease = none := by rw [hrequest]; rfl
  obtain ⟨r, hrun, hrestarted⟩ := h.releaseFirst call.first owner
  have hrestarts : ¬ Restarts call → r = w.registry := fun hnot =>
    hrestarted.same (Bool.eq_false_iff.2 fun hfirst => hnot ⟨hlease, hfirst⟩)
  rw [World.pass, hrequest] at hstep
  simp only [Registry.replacePass, hrun, Option.bind_eq_bind, Option.bind_some] at hstep
  have hothers (id' : Nat) (call' : Call names Owner Lease) (_ : id' ≠ id)
      (hget' : w.calls.get? id' = some call') : Linked r call' :=
    hrestarted.linked call' (h.linked id' call' hget')
  cases hexact : r.exactOwner owner coalesceExact (call.version, deepDetect) with
  | some other =>
    rw [hexact] at hstep
    obtain rfl := Option.some.inj hstep
    exact ⟨hrestarted.sound, hrestarted.backed, linked_erase hothers⟩
  | none =>
    have huncoalesced : w.Uncoalesced call := by
      rw [Uncoalesced, hrequest]
      exact (hrestarted.exactOwner _ _).symm.trans hexact
    rw [hexact] at hstep
    by_cases hfree : r.table.blockingOwners owner call.prepared = []
    · simp only [if_pos hfree, Option.bind_some] at hstep
      obtain rfl := Option.some.inj hstep
      have horderly := hguard ⟨howner ▸ (hrestarted.blockers _).1 hfree, huncoalesced⟩
      have hclaimable : Claimable r.table owner call.prepared := by
        refine ⟨hrestarted.sound.indexed.free hfree, fun q hq e he => ?_, hlinked.nodup⟩
        have hnot : ¬ Restarts call := fun hr => hrestarted.nothing hr.2 _ _ he
        rw [hrestarts hnot] at he
        exact horderly.recorded hnot q hq e (howner ▸ he)
      have hclaims := LeaseTable.claim_spec hrestarted.sound.indexed
        (hclaimable.keys_free hrestarted.sound.indexed)
      refine ⟨⟨?_, ?_, ?_⟩, ?_, linked_erase fun id' call' hid hget' => ?_⟩
      · rw [Registry.claim_table]
        exact hclaims.indexed
      · rw [Registry.claim_pinning]
        exact hrestarted.sound.counted
      · rw [Registry.claim_waiters]
        exact hrestarted.sound.registered
      · rw [Registry.claim_table, Registry.claim_pinning]
        exact hrestarted.backed.claim hclaimable hclaims
          (fun o l => (if_neg (by simp)).symm) (by simp)
      · have hclaims' : r.table.Claims owner call.prepared
            (r.claim owner call.prepared call.version deepDetect).table := by
          rw [Registry.claim_table]
          exact hclaims
        refine (hothers id' call' hid hget').claim hclaims' (Registry.claim_waiters ..)
          (fun o ho k hpos => by rwa [Registry.claim_pinning]) (fun l hl hfirst => ?_)
          fun waiter since blockers hphase hpend ho k p hp => ?_
        · rw [Registry.claim_pinning]
          exact (hothers id' call' hid hget').fresh l hl hfirst
        · rw [Registry.claim_table] at hp
          rw [Registry.claim_pinning]
          have hpinnedAfter : w.PinnedAfter call k := by
            refine horderly.settled id' call' waiter since blockers hid
              ⟨hget', hphase, hrestarted.pending waiter hpend⟩ (ho.trans howner.symm) k ?_
            rcases hclaims.origin k p hp with hold | hmem
            · have hnot : ¬ Restarts call := fun hr => hrestarted.nothing hr.2 _ _ hold
              rw [hrestarts hnot] at hold
              exact .inr ⟨hnot, p, howner ▸ hold⟩
            · refine .inl ?_
              rw [← hclaims.indexed.keyed owner k p hp]
              exact List.mem_map_of_mem hmem
          rcases hpinnedAfter with ⟨hsome, -⟩ | ⟨hnot, l, keys, -, hkeys, hmem⟩
          · exact absurd hlease hsome
          · refine hrestarted.sound.counted.pinned_iff.2 ⟨l, keys, ?_, hmem⟩
            rw [hrestarts hnot, ← howner]
            exact hkeys
    · simp only [if_neg hfree, Option.bind_some] at hstep
      obtain rfl := Option.some.inj hstep
      have hblocked : ∀ b ∈ r.table.blockingOwners owner call.prepared, b ≠ owner ∧
          ∃ q ∈ call.prepared, ∃ k p, r.table.Holds b k p ∧ Blocks p q :=
        fun b hb => hrestarted.sound.indexed.mem_blockingOwners.1 hb
      obtain ⟨hsound, hasleep⟩ := hrestarted.sound.registerWaiter hblocked hfree
      refine ⟨hsound, hrestarted.backed, linked_set (fun id' call' hid hget' => ?_) ?_⟩
      · exact (hothers id' call' hid hget').register hrestarted.sound.registered _
      · refine .sleep hlinked.nodup rfl rfl hasleep (by simp [Request.lease]) fun k p hp => ?_
        cases hfirst : call.first with
        | true => exact absurd hp (hrestarted.nothing hfirst k p)
        | false =>
          have hpinned := hrejoins ⟨howner ▸ fun hnil => hfree ((hrestarted.blockers _).2 hnil),
            huncoalesced, hlease, hfirst⟩
          obtain rfl := hrestarted.same hfirst
          rw [howner] at hpinned
          obtain ⟨l, keys, hkeys, hmem⟩ := hpinned k p hp
          exact h.sound.counted.pinned_iff.2 ⟨l, keys, hkeys, hmem⟩

/-- Every step that meets the condition keeps the registry consistent. -/
theorem Consistent.step (h : w.Consistent) {a : Action Owner Lease} (hguard : w.Guarded a)
    (hstep : w.step a = some w') : w'.Consistent := by
  cases a with
  | start id request fs =>
    simp only [World.step] at hstep
    split at hstep
    · exact absurd hstep (by simp)
    · obtain rfl := Option.some.inj hstep
      exact h.start request fs _
  | pass id cancelled =>
    simp only [World.step] at hstep
    split at hstep
    · exact absurd hstep (by simp)
    · rename_i call hget
      split at hstep
      · split_ifs at hstep
        · obtain rfl := Option.some.inj hstep
          exact h.end id
        · obtain ⟨hclaimed, hrejoins⟩ := hguard call hget
          cases hrequest : call.request with
          | acquire => exact h.acquire hget hrequest hclaimed hstep
          | replace => exact h.replace hget hrequest hclaimed hrejoins hstep
      · exact absurd hstep (by simp)
  | resume id fs =>
    simp only [World.step] at hstep
    split at hstep
    · exact absurd hstep (by simp)
    · rename_i call hget
      split at hstep
      · split_ifs at hstep
        obtain rfl := Option.some.inj hstep
        exact h.resume hget fs
      · exact absurd hstep (by simp)
  | cancel id =>
    simp only [World.step] at hstep
    split at hstep
    · exact absurd hstep (by simp)
    · rename_i call hget
      split at hstep
      · rename_i hphase
        obtain rfl := Option.some.inj hstep
        exact h.cancel hget hphase
      · exact absurd hstep (by simp)
  | leave id =>
    simp only [World.step] at hstep
    split at hstep
    · exact absurd hstep (by simp)
    · rename_i call hget
      split at hstep
      · rename_i hphase
        obtain rfl := Option.some.inj hstep
        exact h.leave hget hphase
      · exact absurd hstep (by simp)
  | releaseLease owner lease =>
    obtain ⟨registry, hrun, hw⟩ := Option.bind_eq_some_iff.1 hstep
    obtain rfl := Option.some.inj hw
    exact h.releaseLease hrun
  | release owner =>
    obtain ⟨registry, hrun, hw⟩ := Option.bind_eq_some_iff.1 hstep
    obtain rfl := Option.some.inj hw
    exact h.release hrun

/-- No section raises `KeyError`. -/
theorem Consistent.enabled (h : w.Consistent) :
    (∀ id call cancelled, w.calls.get? id = some call → call.phase = .ready →
      (w.step (.pass id cancelled)).isSome) ∧
    (∀ owner lease, (w.step (.releaseLease owner lease)).isSome) ∧
    ∀ owner, (w.step (.release owner)).isSome := by
  refine ⟨fun id call cancelled hget hready => ?_, fun owner lease => ?_, fun owner => ?_⟩
  · simp only [World.step, hget, hready]
    split_ifs
    · rfl
    · cases hrequest : call.request with
      | acquire owner paths lease absentPaths =>
        rw [World.pass, hrequest]
        simp only
        split_ifs
        · rfl
        all_goals
          have hfresh (hfirst : call.first = false) :
              (w.registry.pinning.pinsOf owner).get? lease = none := by
            have := (h.linked id call hget).fresh lease
            rw [hrequest] at this
            exact this rfl hfirst
          obtain ⟨_, -, -, ⟨r', hrun, -⟩ | ⟨r', r₁, blockers, hrun, -⟩⟩ :=
            h.sound.acquirePass owner lease call.prepared call.first hfresh
          all_goals
            rw [hrun]
            rfl
      | replace owner paths coalesceExact deepDetect =>
        obtain ⟨r, hrun, -⟩ := h.releaseFirst call.first owner
        rw [World.pass, hrequest]
        simp only [Registry.replacePass, hrun, Option.bind_eq_bind, Option.bind_some]
        cases r.exactOwner owner coalesceExact (call.version, deepDetect) with
        | some other => rfl
        | none =>
          simp only
          split_ifs <;> rfl
  · obtain ⟨r', idle, hrun, -⟩ := h.sound.releaseLease owner lease
    simp only [World.step, hrun]
    rfl
  · obtain ⟨r', hrun, -⟩ := h.sound.release owner
    simp only [World.step, hrun]
    rfl

end World

/-- In runs whose passes are orderly, every lease is exclusive, the indexes are those of the paths and
the pins, and nobody sleeps with idle paths or without a blocker. -/
theorem leases_safe {w : World names Owner Lease}
    (h : ((machine names Owner Lease).restrict World.Guarded).Reachable w) : w.Safe := by
  refine World.Consistent.safe ?_
  refine h.invariant World.consistent_init fun s a t hs hstep => ?_
  obtain ⟨hguard, hstep⟩ := Machine.restrict_step.1 hstep
  exact hs.step hguard hstep

/-! ## A directory granted as a missing path -/

/-- The parents of a key such as `c:\\k\\x`. -/
def driveParents (key : Text) : List Text :=
  ((List.range key.length).reverse.filter fun n => key[n]? = some '\\' ∧ n + 1 < key.length).map
    fun n => if n = 2 then key.take 3 else key.take n

/-- Names of normalized paths in small letters. -/
def plainNames : PathNames := ⟨id, id, driveParents⟩

def plainDisk (outcome : StatOutcome) : FileSystem where
  stat _ := outcome
  resolvedKey path := if path = [] then ['.'] else path
  resolved_ne path := by
    split_ifs with h
    · exact List.cons_ne_nil _ _
    · exact h

def emptyDisk : FileSystem := plainDisk .notFound

def directoryDisk : FileSystem := plainDisk (.found ⟨1, 1, 0, 0, true⟩)

def volumePath : Text := ['c', ':', '\\', 'k']

/-- One request leases a missing path. -/
def leaseMissing : List (Action Nat Nat) :=
  [.start 0 (.acquire 0 [volumePath] 0 []) emptyDisk, .pass 0 false]

/-- The only call of a world without leases is orderly. -/
theorem World.guarded_pass_of_first {call : Call names Owner Lease} {lease : Lease}
    (hlease : call.request.lease = some lease) (cancelled : Bool) :
    World.Guarded { calls := (∅ : Dict Nat (Call names Owner Lease)).set 0 call }
      (.pass 0 cancelled) := by
  have honly (id' : Nat) (call' : Call names Owner Lease) (hid : id' ≠ 0)
      (hget : ((∅ : Dict Nat (Call names Owner Lease)).set 0 call).get? id' = some call') : False := by
    rw [Dict.get?_set_of_ne _ hid] at hget
    exact absurd hget (by simp)
  intro call' hget
  rw [Dict.get?_set_self] at hget
  obtain rfl := Option.some.inj hget
  refine ⟨fun _ => ⟨fun _ q _ e he => ?_, fun l _ id' call' hid hget => ?_,
    fun id' call' _ _ _ hid hsleeps => ?_⟩, fun hrejoins => ?_⟩
  · exact absurd he (by simp [LeaseTable.Holds, LeaseTable.pathsOf])
  · exact absurd hget fun h => honly id' call' hid h
  · exact absurd hsleeps.1 fun h => honly id' call' hid h
  · exact absurd (hlease.symm.trans hrejoins.2.2.1) (by simp)

/-- The lease of a missing path, in an orderly run. -/
theorem leases_safe_of_leaseMissing :
    ∃ w, ((machine plainNames Nat Nat).restrict World.Guarded).Reachable w ∧
      w.grants.map (·.owner) = [0] ∧ w.Safe := by
  have hrun : (((machine plainNames Nat Nat).exec {} leaseMissing).map
      fun w => w.grants.map (·.owner)) = some [0] := by
    decide
  obtain ⟨w, hw, howners⟩ := Option.map_eq_some_iff.1 hrun
  obtain ⟨w₁, hstart, hrest⟩ := Option.bind_eq_some_iff.1 hw
  obtain ⟨w₂, hpass, hend⟩ := Option.bind_eq_some_iff.1 hrest
  obtain rfl := Option.some.inj hend
  obtain rfl := Option.some.inj hstart
  have hreachable : ((machine plainNames Nat Nat).restrict World.Guarded).Reachable w₂ :=
    .tail (.pass 0 false)
      (.tail (.start 0 (.acquire 0 [volumePath] 0 []) emptyDisk) .refl
        (Machine.restrict_step.2 ⟨trivial, rfl⟩))
      (Machine.restrict_step.2 ⟨World.guarded_pass_of_first rfl false, hpass⟩)
  exact ⟨w₂, hreachable, howners, leases_safe hreachable⟩

/-- Another job of the request leases the path when it is a directory; another request leases a file
in the directory. -/
def leaseBelow : List (Action Nat Nat) :=
  leaseMissing ++
    [.start 1 (.acquire 0 [volumePath] 1 []) directoryDisk, .pass 1 false,
      .start 2 (.acquire 1 [volumePath ++ ['\\', 'x']] 0 []) directoryDisk, .pass 2 false]

/-- Some grants of two owners conflict. -/
def World.clash (w : World names Owner Lease) : Bool :=
  w.grants.any fun g => w.grants.any fun g' =>
    g'.owner ≠ g.owner ∧ ∃ p ∈ g.paths, ∃ q ∈ g'.paths, Conflict p q

omit [DecidableEq Lease] in
theorem World.not_exclusive_of_clash {w : World names Owner Lease} (h : w.clash = true) :
    ¬ w.Exclusive := by
  simp only [World.clash, List.any_eq_true, decide_eq_true_eq] at h
  obtain ⟨g, hg, g', hg', hne, p, hp, q, hq, hconflict⟩ := h
  exact fun hexclusive => (hexclusive g hg p hp).2 g' hg' hne q hq hconflict

/-- A directory and a file in it are leased to two requests. -/
theorem leaseBelow_clashes :
    ∃ w, (machine plainNames Nat Nat).Reachable w ∧ ¬ w.Safe := by
  have hrun : (((machine plainNames Nat Nat).exec {} leaseBelow).map World.clash) = some true := by
    decide
  obtain ⟨w, hw, hclash⟩ := Option.map_eq_some_iff.1 hrun
  exact ⟨w, .of_exec hw, fun hsafe => World.not_exclusive_of_clash hclash hsafe.exclusive⟩

/-- A job leases a path, and in its turn a second path, while another job of the request waits. -/
def leaseWhileWaiting : List (Action Nat Nat) :=
  [.start 0 (.acquire 1 [['x']] 0 []) emptyDisk, .pass 0 false] ++
    [.start 1 (.acquire 0 [['y']] 1 []) emptyDisk, .pass 1 false,
      .start 2 (.acquire 0 [['x']] 0 []) emptyDisk, .pass 2 false,
      .start 3 (.acquire 0 [['z']] 1 []) emptyDisk, .pass 3 false]

/-- A waiting owner has a path that none of its leases pins. -/
def World.keepsIdle (w : World names Owner Lease) : Bool :=
  w.calls.values.any fun call =>
    match call.phase with
    | .waiting waiter _ _ =>
      w.registry.waiters.futures[waiter]? = some .pending ∧
        ∃ key ∈ (w.registry.table.pathsOf call.request.owner).keys,
          w.registry.pinning.pinCounts.countAt call.request.owner key = 0
    | _ => false

theorem World.not_safe_of_keepsIdle {w : World names Owner Lease} (h : w.keepsIdle = true) :
    ¬ w.Safe := by
  intro hsafe
  obtain ⟨call, hcall, hidle⟩ := List.any_eq_true.1 h
  obtain ⟨e, he, rfl⟩ := List.mem_map.1 hcall
  split at hidle
  · rename_i waiter since blockers hphase
    obtain ⟨hpending, key, hkey, hzero⟩ := of_decide_eq_true hidle
    obtain ⟨p, hp⟩ := Option.ne_none_iff_exists'.1 (Dict.mem_keys.1 hkey)
    obtain ⟨l, keys, -, hget, hmem⟩ := hsafe.keepsPinned e.1 e.2 waiter since blockers
      ⟨Dict.mem_entries.1 he, hphase, hpending⟩ key p hp
    have hpos := hsafe.counted.pinned_iff.2 ⟨l, keys, hget, hmem⟩
    rw [hzero] at hpos
    exact absurd hpos (Nat.lt_irrefl 0)
  · exact absurd hidle (by decide)

/-- The first path of the second job is kept while the other job waits. -/
theorem leaseWhileWaiting_keepsIdle :
    ∃ w, (machine plainNames Nat Nat).Reachable w ∧ ¬ w.Safe := by
  have hrun : (((machine plainNames Nat Nat).exec {} leaseWhileWaiting).map World.keepsIdle) =
      some true := by
    decide
  obtain ⟨w, hw, hidle⟩ := Option.map_eq_some_iff.1 hrun
  exact ⟨w, .of_exec hw, World.not_safe_of_keepsIdle hidle⟩

end Sunpack.PathLease
