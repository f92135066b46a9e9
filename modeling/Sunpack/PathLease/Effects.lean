import Sunpack.PathLease.Registry

/-!
# What the sections of the registry do

Paths are given up by one owner at a time, and whoever waits for that owner is woken (`GivesUp`). A
waiter that is asleep stays linked to its blockers, and all of them still stand in its way
(`Asleep`).
-/

namespace Sunpack.PathLease

open Lib

namespace Registry

variable {names : PathNames} {Owner Lease : Type} [DecidableEq Owner]

def Pending (r : Registry names Owner Lease) (waiter : Nat) : Prop :=
  r.waiters.futures[waiter]? = some .pending

structure Sound (r : Registry names Owner Lease) : Prop where
  indexed : r.table.Indexed
  counted : r.pinning.Counted
  registered : r.waiters.Registered

theorem sound_empty : Sound ({} : Registry names Owner Lease) :=
  ⟨LeaseTable.indexed_empty, PinTable.counted_empty, Waiters.registered_empty⟩

/-- From `r` to `r'` the owner gave up the paths under some keys, and nobody else did. -/
structure GivesUp (r : Registry names Owner Lease) (owner : Owner) (gone : Text → Prop)
    (r' : Registry names Owner Lease) : Prop where
  indexed : r'.table.Indexed
  registered : r'.waiters.Registered
  holds : ∀ o k q, r'.table.Holds o k q ↔ r.table.Holds o k q ∧ ¬ (o = owner ∧ gone k)
  gaveUp : ∃ n, r'.table.gaveUp = r.table.gaveUp ++ List.replicate n owner
  pending : ∀ n, r'.Pending n → r.Pending n
  still : ∀ n bs, r'.Pending n → r.waiters.waiterBlockers.get? n = some bs →
    r'.waiters.waiterBlockers.get? n = some bs ∧
      (owner ∈ bs → r'.table.gaveUp = r.table.gaveUp ∧
        ∀ o k q, r'.table.Holds o k q ↔ r.table.Holds o k q)
  length : r'.waiters.futures.length = r.waiters.futures.length

/-- A call sleeps on the waiter since the history had that length. -/
structure Asleep (r : Registry names Owner Lease) (owner : Owner)
    (prepared : List (LeasePath names)) (waiter since : Nat) (blockers : List Owner) : Prop where
  registered : r.waiters.waiterBlockers.get? waiter = some blockers
  nonempty : blockers ≠ []
  since_le : since ≤ r.table.gaveUp.length
  quiet : ∀ b ∈ blockers, b ∉ r.table.gaveUp.drop since
  blocked : ∀ b ∈ blockers, b ≠ owner ∧
    ∃ q ∈ prepared, ∃ k p, r.table.Holds b k p ∧ Blocks p q

variable {r r' r₁ : Registry names Owner Lease} {owner other : Owner} {lease : Lease}
  {prepared : List (LeasePath names)} {gone : Text → Prop} {waiter since : Nat}
  {blockers : List Owner}

/-- Paths are removed and those who wait for the owner are woken. -/
theorem GivesUp.of_remove (r r₁ : Registry names Owner Lease) (owner : Owner) (gone : Text → Prop)
    (removed : Bool) (hindexed : r₁.table.Indexed) (hregistered : r.waiters.Registered)
    (hwaiters : r₁.waiters = r.waiters)
    (hholds : ∀ o k q, r₁.table.Holds o k q ↔ r.table.Holds o k q ∧ ¬ (o = owner ∧ gone k))
    (hgave : ∃ n, r₁.table.gaveUp = r.table.gaveUp ++ List.replicate n owner ∧
      (removed = false → n = 0))
    (hkept : removed = false → ∀ o k q, r₁.table.Holds o k q ↔ r.table.Holds o k q) :
    GivesUp r owner gone (r₁.wakeIf removed owner) ∧
      (r₁.wakeIf removed owner).pinning = r₁.pinning := by
  obtain ⟨n, hn, hzero⟩ := hgave
  cases removed with
  | false =>
    have hpending (w : Nat) (h : (r₁.wakeIf false owner).Pending w) : r.Pending w := by
      rw [Pending, ← hwaiters]
      exact h
    refine ⟨⟨hindexed, hwaiters ▸ hregistered, hholds, ⟨n, hn⟩, hpending,
      fun w bs _ hget => ⟨?_, fun _ => ⟨?_, hkept rfl⟩⟩, ?_⟩, rfl⟩
    · show r₁.waiters.waiterBlockers.get? w = some bs
      rw [hwaiters, hget]
    · show r₁.table.gaveUp = _
      rw [hn, hzero rfl, List.replicate_zero, List.append_nil]
    · show r₁.waiters.futures.length = _
      rw [hwaiters]
  | true =>
    have hwakes := hregistered.wake owner
    have hnew : (r₁.wakeIf true owner).waiters = r.waiters.wakeWaitersFor owner := by
      rw [← hwaiters]
      rfl
    refine ⟨⟨hindexed, hnew ▸ hwakes.registered, hholds, ⟨n, hn⟩, fun w hpending => ?_,
      fun w bs hpending hget => ?_, ?_⟩, rfl⟩
    · rw [Pending, hnew, hwakes.futures] at hpending
      split_ifs at hpending
      · exact absurd hpending (by decide)
      · exact hpending
    · rw [Pending, hnew] at hpending
      have hnot : owner ∉ bs := Waiters.Wakes.done hregistered hwakes hpending hget
      have hasleep : w ∉ r.waiters.waitingFor owner := by
        intro hmem
        obtain ⟨bs', hget', hmem'⟩ := (hregistered.agree owner w).1 hmem
        rw [hget] at hget'
        exact hnot (Option.some.inj hget' ▸ hmem')
      refine ⟨?_, fun hmem => absurd hmem hnot⟩
      rw [hnew, hwakes.blockers, if_neg hasleep, hget]
    · rw [hnew]
      exact hwakes.length

/-- Who still sleeps after that sleeps as before. -/
theorem GivesUp.asleep (h : GivesUp r owner gone r') (hpending : r'.Pending waiter)
    (hasleep : Asleep r other prepared waiter since blockers) :
    Asleep r' other prepared waiter since blockers := by
  obtain ⟨hget, hquiet⟩ := h.still waiter blockers hpending hasleep.registered
  obtain ⟨n, hn⟩ := h.gaveUp
  refine ⟨hget, hasleep.nonempty, ?_, fun b hb hmem => ?_, fun b hb => ?_⟩
  · rw [hn, List.length_append]
    exact Nat.le_add_right_of_le hasleep.since_le
  · by_cases hbo : b = owner
    · rw [(hquiet (hbo ▸ hb)).1] at hmem
      exact hasleep.quiet b hb hmem
    · rw [hn, List.drop_append_of_le_length hasleep.since_le, List.mem_append] at hmem
      rcases hmem with hmem | hmem
      · exact hasleep.quiet b hb hmem
      · exact hbo (List.eq_of_mem_replicate hmem)
  · obtain ⟨hne, q, hq, k, p, hp, hblocks⟩ := hasleep.blocked b hb
    refine ⟨hne, q, hq, k, p, ?_, hblocks⟩
    by_cases hbo : b = owner
    · exact ((hquiet (hbo ▸ hb)).2 b k p).2 hp
    · exact (h.holds b k p).2 ⟨hp, fun h => hbo h.1⟩

/-- A claim takes nothing from anybody. -/
theorem Asleep.claims {paths : List (LeasePath names)}
    (hasleep : Asleep r other prepared waiter since blockers)
    (hclaims : r.table.Claims owner paths r'.table) (hwaiters : r'.waiters = r.waiters) :
    Asleep r' other prepared waiter since blockers := by
  refine ⟨hwaiters ▸ hasleep.registered, hasleep.nonempty, hclaims.gaveUp ▸ hasleep.since_le,
    hclaims.gaveUp ▸ hasleep.quiet, fun b hb => ?_⟩
  obtain ⟨hne, q, hq, k, p, hp, hblocks⟩ := hasleep.blocked b hb
  refine ⟨hne, q, hq, k, p, ?_, hblocks⟩
  by_cases hbo : b = owner
  · exact hbo ▸ hclaims.kept k p (hbo ▸ hp)
  · exact (hclaims.others b hbo k p).2 hp

/-- A new waiter is a new number. -/
theorem Asleep.register (hasleep : Asleep r other prepared waiter since blockers)
    (hregistered : r.waiters.Registered) (bs : List Owner) :
    Asleep { r with waiters := (r.waiters.registerWaiter bs).1 } other prepared waiter since
      blockers := by
  refine ⟨?_, hasleep.nonempty, hasleep.since_le, hasleep.quiet, hasleep.blocked⟩
  have hlt := hregistered.known _ _ hasleep.registered
  show (r.waiters.waiterBlockers.set r.waiters.futures.length bs).get? waiter = some blockers
  rw [Dict.get?_set_of_ne _ (Nat.ne_of_lt hlt), hasleep.registered]

/-! ## The sections -/

/-- The idle paths are those no lease pins. -/
theorem Sound.dropIdle (h : r.Sound) (owner : Owner) :
    ∃ r', r.dropIdle owner = some r' ∧ r'.Sound ∧ r'.pinning = r.pinning ∧
      GivesUp r owner (fun k => r.pinning.pinCounts.countAt owner k = 0) r' := by
  obtain ⟨t', removed, hrun, hremoves⟩ := h.indexed.removePaths owner
    ((r.table.pathsOf owner).keys.filter fun key =>
      ((r.pinning.pinCounts.row owner).get? key).isNone)
  have hholds (o : Owner) (k : Text) (q : LeasePath names) : t'.Holds o k q ↔
      r.table.Holds o k q ∧ ¬ (o = owner ∧ r.pinning.pinCounts.countAt owner k = 0) := by
    rw [hremoves.holds]
    refine and_congr_right fun hq => not_congr (and_congr_right fun ho => ?_)
    have hzero : ((r.pinning.pinCounts.row owner).get? k).isNone = true ↔
        r.pinning.pinCounts.countAt owner k = 0 := by
      have := (h.counted.positive owner).countOf_pos (x := k)
      rw [Option.isNone_iff_eq_none, Dict.countAt]
      by_cases hnone : (r.pinning.pinCounts.row owner).get? k = none
      · simp only [hnone, ne_eq, not_true_eq_false, iff_false, true_iff] at this ⊢
        omega
      · simp only [hnone, ne_eq, not_false_eq_true, iff_true, false_iff] at this ⊢
        omega
    rw [List.mem_filter, hzero]
    refine ⟨And.right, fun h => ⟨?_, h⟩⟩
    rw [Dict.mem_keys, ← ho, hq]
    exact Option.some_ne_none _
  obtain ⟨hgives, hpins⟩ := GivesUp.of_remove r { r with table := t' } owner
    (fun k => r.pinning.pinCounts.countAt owner k = 0) removed
    hremoves.indexed h.registered rfl hholds hremoves.gaveUp hremoves.kept
  refine ⟨_, ?_, ⟨hgives.indexed, ?_, hgives.registered⟩, hpins, hgives⟩
  · rw [Registry.dropIdle]
    show (r.table.removePaths owner _).bind _ = _
    rw [hrun]
    rfl
  · rw [hpins]
    exact h.counted

/-- `release`. -/
theorem Sound.release (h : r.Sound) (owner : Owner) :
    ∃ r', r.release owner = some r' ∧ r'.Sound ∧ r'.pinning = r.pinning.forget owner ∧
      GivesUp r owner (fun _ => True) r' := by
  obtain ⟨t', removed, hrun, hindexed, hholds, ⟨n, hn, hzero⟩, hkept⟩ := h.indexed.removeOwner owner
  obtain ⟨r₁, hr₁, htable, hpinning, hwaiters⟩ : ∃ r₁, r.removeOwner owner =
      some (r₁, removed || (r.ownerGenerations.get? owner).isSome) ∧ r₁.table = t' ∧
        r₁.pinning = r.pinning.forget owner ∧ r₁.waiters = r.waiters := by
    rw [Registry.removeOwner, hrun]
    exact ⟨_, rfl, rfl, rfl, rfl⟩
  have hflag (hfalse : (removed || (r.ownerGenerations.get? owner).isSome) = false) :
      removed = false := (Bool.or_eq_false_iff.1 hfalse).1
  obtain ⟨hgives, hpins⟩ := GivesUp.of_remove r r₁ owner (fun _ => True)
    (removed || (r.ownerGenerations.get? owner).isSome) (htable ▸ hindexed) h.registered
    hwaiters
    (fun o k q => by
      rw [htable, hholds]
      simp only [and_true, ne_eq])
    ⟨n, by rw [htable, hn], fun hfalse => hzero (hflag hfalse)⟩
    fun hfalse => by
      rw [htable]
      exact hkept (hflag hfalse)
  refine ⟨_, by rw [Registry.release, hr₁]; rfl, ⟨hgives.indexed, ?_, hgives.registered⟩, ?_,
    hgives⟩
  · rw [hpins, hpinning]
    exact h.counted.forget owner
  · rw [hpins, hpinning]

/-- Only the others' paths stand in an owner's way. -/
theorem GivesUp.blockingOwners_nil (h : GivesUp r owner gone r') (hindexed : r.table.Indexed) :
    r'.table.blockingOwners owner prepared = [] ↔ r.table.blockingOwners owner prepared = [] := by
  simp only [List.eq_nil_iff_forall_not_mem, h.indexed.mem_blockingOwners,
    hindexed.mem_blockingOwners, h.holds]
  refine forall_congr' fun o => not_congr (and_congr_right fun ho => ?_)
  simp only [ho, false_and, not_false_eq_true, and_true]

/-- A waiter for the blockers that were found. -/
theorem Sound.registerWaiter (h : r.Sound)
    (hblocked : ∀ b ∈ blockers, b ≠ owner ∧
      ∃ q ∈ prepared, ∃ k p, r.table.Holds b k p ∧ Blocks p q) (hnonempty : blockers ≠ []) :
    Sound { r with waiters := (r.waiters.registerWaiter blockers).1 } ∧
      Asleep { r with waiters := (r.waiters.registerWaiter blockers).1 } owner prepared
        r.waiters.futures.length r.table.gaveUp.length blockers := by
  refine ⟨⟨h.indexed, h.counted, h.registered.register blockers⟩, ?_, hnonempty, Nat.le_refl _, ?_,
    hblocked⟩
  · show (r.waiters.waiterBlockers.set r.waiters.futures.length blockers).get? _ = some blockers
    rw [Dict.get?_set_self]
  · intro b _ hmem
    rw [List.drop_length] at hmem
    exact absurd hmem List.not_mem_nil

/-- The generation of an owner is no other owner's. -/
theorem exactOwner_release (hrelease : r.release owner = some r') (coalesceExact : Bool)
    (generation : Generation) :
    r'.exactOwner owner coalesceExact generation = r.exactOwner owner coalesceExact generation := by
  obtain ⟨s, hs, hr'⟩ := Option.bind_eq_some_iff.1 hrelease
  obtain ⟨t, -, hremoved⟩ := Option.bind_eq_some_iff.1 hs
  have hs' : s.1.generationOwners = _ := (congrArg (fun x => x.1.generationOwners)
    (Option.some.inj hremoved)).symm
  have howners : r'.generationOwners = s.1.generationOwners := by
    rw [← Option.some.inj hr', wakeIf]
    split_ifs <;> rfl
  rw [exactOwner, exactOwner, howners, hs']
  cases hgeneration : r.ownerGenerations.get? owner with
  | none => rfl
  | some g =>
    simp only
    split_ifs with hcoalesce hmine
    · show ((r.generationOwners.erase g).get? generation).filter _ = _
      rw [Dict.get?_erase]
      split_ifs with hsame
      · rw [hsame, hmine, Option.filter_none, Option.filter_some, if_neg (by simp)]
      · rfl
    · rfl
    · rfl

variable [DecidableEq Lease]

/-- `release_lease`. -/
theorem Sound.releaseLease (h : r.Sound) (owner : Owner) (lease : Lease) :
    ∃ r' idle, r.releaseLease owner lease = some r' ∧ r'.Sound ∧
      PinTable.Unpins r.pinning owner lease r'.pinning idle ∧
      GivesUp r owner (fun k => k ∈ idle) r' := by
  obtain ⟨pinning, idle, hunpin, hunpins⟩ := h.counted.unpin owner lease
  obtain ⟨t', removed, hrun, hremoves⟩ := h.indexed.removePaths owner idle
  obtain ⟨hgives, hpins⟩ := GivesUp.of_remove r { r with pinning := pinning, table := t' } owner
    (fun k => k ∈ idle) removed
    hremoves.indexed h.registered rfl hremoves.holds hremoves.gaveUp hremoves.kept
  refine ⟨_, idle, ?_, ⟨hgives.indexed, ?_, hgives.registered⟩, ?_, hgives⟩
  · rw [Registry.releaseLease, hunpin]
    show (r.table.removePaths owner idle).bind _ = _
    rw [hrun]
    rfl
  · rw [hpins]
    exact hunpins.counted
  · rw [hpins]
    exact hunpins

theorem Sound.unpinFirst (h : r.Sound) (first : Bool) (owner : Owner) (lease : Lease)
    (hunpinned : first = false → (r.pinning.pinsOf owner).get? lease = none) :
    ∃ pinning, r.unpinFirst first owner lease = some { r with pinning := pinning } ∧
      pinning.Counted ∧ ∀ o l, (pinning.pinsOf o).get? l =
        if o = owner ∧ l = lease then none else (r.pinning.pinsOf o).get? l := by
  cases first with
  | true =>
    obtain ⟨pinning, idle, hunpin, hunpins⟩ := h.counted.unpin owner lease
    refine ⟨pinning, ?_, hunpins.counted, hunpins.pins⟩
    rw [Registry.unpinFirst, if_pos rfl, hunpin]
    rfl
  | false =>
    refine ⟨r.pinning, rfl, h.counted, fun o l => ?_⟩
    split_ifs with hboth
    · rw [hboth.1, hboth.2]
      exact hunpinned rfl
    · rfl

/-- `acquire` goes through: the paths are claimed and pinned. -/
structure Acquires (r : Registry names Owner Lease) (owner : Owner) (lease : Lease)
    (prepared : List (LeasePath names)) (pinning : PinTable Owner Lease)
    (r' : Registry names Owner Lease) : Prop where
  free : r.table.blockingOwners owner prepared = []
  table : r'.table = r.table.claim owner prepared
  pinned : r'.pinning = pinning.pin owner lease (prepared.map (·.key))
  waiters : r'.waiters = r.waiters

/-- A call goes to sleep: after some paths were given up a waiter is registered. -/
structure GoesToSleep (r : Registry names Owner Lease) (owner : Owner)
    (prepared : List (LeasePath names)) (blockers : List Owner)
    (r₁ r' : Registry names Owner Lease) : Prop where
  found : r.table.blockingOwners owner prepared = blockers
  nonempty : blockers ≠ []
  sound : r₁.Sound
  registers : r' = { r₁ with waiters := (r₁.waiters.registerWaiter blockers).1 }

theorem Sound.acquirePass (h : r.Sound) (owner : Owner) (lease : Lease)
    (prepared : List (LeasePath names)) (first : Bool)
    (hunpinned : first = false → (r.pinning.pinsOf owner).get? lease = none) :
    ∃ pinning, pinning.Counted ∧
      (∀ o l, (pinning.pinsOf o).get? l =
        if o = owner ∧ l = lease then none else (r.pinning.pinsOf o).get? l) ∧
      ((∃ r', r.acquirePass owner lease prepared first = some (r', none) ∧
          Acquires r owner lease prepared pinning r') ∨
        ∃ r' r₁ blockers, r.acquirePass owner lease prepared first =
            some (r', some (r₁.waiters.futures.length, blockers)) ∧
          GoesToSleep r owner prepared blockers r₁ r' ∧ r₁.pinning = pinning ∧
          GivesUp r owner (fun k => pinning.pinCounts.countAt owner k = 0) r₁) := by
  obtain ⟨pinning, hunpin, hcounted, hpins⟩ := h.unpinFirst first owner lease hunpinned
  refine ⟨pinning, hcounted, hpins, ?_⟩
  have hsound : Sound { r with pinning := pinning } := ⟨h.indexed, hcounted, h.registered⟩
  by_cases hfree : r.table.blockingOwners owner prepared = []
  · refine .inl ⟨{ r with
        table := r.table.claim owner prepared
        pinning := pinning.pin owner lease (prepared.map (·.key)) }, ?_, hfree, rfl, rfl, rfl⟩
    rw [Registry.acquirePass, hunpin]
    simp only [Option.bind_eq_bind, Option.bind_some]
    rw [if_pos hfree, Registry.claim, if_pos rfl]
  · obtain ⟨r₁, hdrop, hsound₁, hpinning, hgives⟩ := hsound.dropIdle owner
    refine .inr ⟨_, r₁, _, ?_, ⟨rfl, hfree, hsound₁, rfl⟩, hpinning,
      ⟨hgives.indexed, hgives.registered, hgives.holds, hgives.gaveUp, hgives.pending,
        hgives.still, hgives.length⟩⟩
    rw [Registry.acquirePass, hunpin]
    simp only [Option.bind_eq_bind, Option.bind_some]
    rw [if_neg hfree, hdrop]
    rfl

end Registry

end Sunpack.PathLease
