import Sunpack.SourceClaims.Model

/-!
# Claims keep their dirty marks

Which owner has which key is written down twice and stays the same; a dirty mark goes with its key,
and the end of a claim enqueues exactly the paths that were marked.
-/

namespace Sunpack.SourceClaims.Gate

open Lib

variable {Path Key : Type} [DecidableEq Key] {pathKey : Path → Key} {g g' : Gate Path Key}
  {owner : Owner} {key : Key}

/-! ## Who has what -/

def Owns (g : Gate Path Key) (owner : Owner) (key : Key) : Prop :=
  ∃ keys, g.claimsByOwner.get? owner = some keys ∧ key ∈ keys

def Claimed (g : Gate Path Key) (owner : Owner) (key : Key) : Prop :=
  ∃ claim, g.activeClaims.get? key = some claim ∧ claim.owner = owner

instance (g : Gate Path Key) (owner : Owner) (key : Key) : Decidable (g.Claimed owner key) :=
  decidable_of_iff ((g.activeClaims.get? key).any (·.owner = owner) = true) (by
    unfold Claimed
    cases g.activeClaims.get? key <;> simp)

def Dirty (g : Gate Path Key) (owner : Owner) (key : Key) (path : Path) : Prop :=
  ∃ dirty, g.dirtyDuringClaim.get? owner = some dirty ∧ dirty.get? key = some path

/-- Inside a section the owner that takes keys may have none yet. -/
structure Inv (pathKey : Path → Key) (taking : Option Owner) (g : Gate Path Key) : Prop where
  inverse : ∀ owner key, g.Owns owner key ↔ g.Claimed owner key
  nodup : ∀ owner keys, g.claimsByOwner.get? owner = some keys → keys.Nodup
  nonempty : ∀ owner, g.claimsByOwner.get? owner = some [] → taking = some owner
  named : ∀ key claim, g.activeClaims.get? key = some claim → claim.owner ≠ ""
  dirty : ∀ owner key path, g.Dirty owner key path → g.Claimed owner key ∧ pathKey path = key
  probes : ∀ key probe, g.sourceProbes.get? key = some probe →
    g.activeClaims.get? key = none ∧ pathKey probe.path = key
  refused : ∀ key, 0 < g.refused key ↔ ∃ owner path, g.Dirty owner key path
  issued : ∀ key, (g.reconcile ++ g.enqueued).countP (pathKey · = key) = g.episodes key

theorem inv_init : Inv pathKey none ({} : Gate Path Key) where
  inverse owner key := by
    refine iff_of_false ?_ ?_
    · rintro ⟨keys, h, -⟩
      cases h
    · rintro ⟨claim, h, -⟩
      cases h
  nodup owner keys h := by cases h
  nonempty owner h := by cases h
  named key claim h := by cases h
  dirty owner key path h := by
    obtain ⟨dirty, h, -⟩ := h
    cases h
  probes key probe h := by cases h
  refused key := by
    refine iff_of_false (Nat.lt_irrefl 0) ?_
    rintro ⟨owner, path, dirty, h, -⟩
    cases h
  issued key := rfl

/-! ## What the parts of a section change -/

theorem dirty_mark (g : Gate Path Key) (owner : Owner) (key : Key) (path : Path) (owner' : Owner)
    (key' : Key) (path' : Path) : (g.mark owner key path).Dirty owner' key' path' ↔
      if owner' = owner ∧ key' = key then path' = path else g.Dirty owner' key' path' := by
  unfold Dirty mark
  simp only [Dict.get?_set]
  by_cases howner : owner' = owner
  · subst howner
    simp only [true_and, if_true, Option.some.injEq, exists_eq_left', Dict.get?_set]
    by_cases hkey : key' = key
    · rw [if_pos hkey, if_pos hkey, Option.some.injEq, eq_comm]
    · rw [if_neg hkey, if_neg hkey]
      cases g.dirtyDuringClaim.get? owner' with
      | none => simp
      | some dirty => simp
  · simp [howner]

/-- A mark that leaves with its key, and the dictionary with its last mark. -/
theorem dirty_unmark (key : Key) {dirty : Dict Key Path} (hdirty : g.dirtyDuringClaim.get? owner = some dirty)
    (owner' : Owner) (key' : Key) (path' : Path) :
    ({ g with
      dirtyDuringClaim := if (dirty.erase key).keys = [] then g.dirtyDuringClaim.erase owner
        else g.dirtyDuringClaim.set owner (dirty.erase key) } : Gate Path Key).Dirty owner' key' path' ↔
      ¬ (owner' = owner ∧ key' = key) ∧ g.Dirty owner' key' path' := by
  unfold Dirty
  dsimp only
  by_cases howner : owner' = owner
  · subst howner
    rw [hdirty]
    simp only [true_and, Option.some.injEq, exists_eq_left']
    have herase : (dirty.erase key).get? key' = some path' ↔
        ¬ key' = key ∧ dirty.get? key' = some path' := by
      rw [Dict.get?_erase]
      split_ifs with hkey <;> simp [hkey]
    rw [← herase]
    by_cases hempty : (dirty.erase key).keys = []
    · rw [if_pos hempty, Dict.get?_erase_self]
      have hnone : (dirty.erase key).get? key' = none := by
        rw [Dict.get?_eq_none, hempty]
        exact List.not_mem_nil
      rw [hnone]
      simp
    · rw [if_neg hempty, Dict.get?_set_self]
      simp
  · have hsame : (if (dirty.erase key).keys = [] then g.dirtyDuringClaim.erase owner
        else g.dirtyDuringClaim.set owner (dirty.erase key)).get? owner' =
          g.dirtyDuringClaim.get? owner' := by
      split_ifs
      · exact Dict.get?_erase_of_ne _ howner
      · exact Dict.get?_set_of_ne _ howner _
    rw [hsame]
    simp [howner]

/-- The key leaves its owner, if it is there. -/
theorem owns_removeKey (h : g.Owns owner key)
    (hnodup : ∀ owner keys, g.claimsByOwner.get? owner = some keys → keys.Nodup) :
    ∃ claims, removeKey g.claimsByOwner owner key = some claims ∧
      (∀ owner' key', ({ g with claimsByOwner := claims } : Gate Path Key).Owns owner' key' ↔
        ¬ (owner' = owner ∧ key' = key) ∧ g.Owns owner' key') ∧
      (∀ owner' keys, claims.get? owner' = some keys → keys.Nodup) ∧
      (∀ owner', claims.get? owner' = some [] → g.claimsByOwner.get? owner' = some []) := by
  obtain ⟨keys, hget, hmem⟩ := h
  unfold removeKey
  rw [hget]
  dsimp only
  rw [if_pos hmem]
  have hkeys : ∀ key', key' ∈ keys.erase key ↔ ¬ key' = key ∧ key' ∈ keys := fun key' =>
    (hnodup owner keys hget).mem_erase_iff
  refine ⟨_, rfl, fun owner' key' => ?_, fun owner' keys' h => ?_, fun owner' h => ?_⟩
  · unfold Owns
    dsimp only
    by_cases howner : owner' = owner
    · subst howner
      rw [hget]
      simp only [true_and, Option.some.injEq, exists_eq_left']
      rw [← hkeys]
      by_cases hempty : keys.erase key = []
      · rw [if_pos hempty, Dict.get?_erase_self, hempty]
        simp
      · rw [if_neg hempty, Dict.get?_set_self]
        simp
    · have hsame : (if keys.erase key = [] then g.claimsByOwner.erase owner
          else g.claimsByOwner.set owner (keys.erase key)).get? owner' =
            g.claimsByOwner.get? owner' := by
        split_ifs
        · exact Dict.get?_erase_of_ne _ howner
        · exact Dict.get?_set_of_ne _ howner _
      rw [hsame]
      simp [howner]
  · split_ifs at h with hempty
    · rw [Dict.get?_erase] at h
      split_ifs at h
      exact hnodup owner' keys' h
    · rw [Dict.get?_set] at h
      split_ifs at h
      · obtain rfl := Option.some.inj h
        exact (hnodup owner keys hget).erase key
      · exact hnodup owner' keys' h
  · split_ifs at h with hempty
    · rw [Dict.get?_erase] at h
      split_ifs at h
      exact h
    · rw [Dict.get?_set] at h
      split_ifs at h
      · exact absurd (Option.some.inj h) hempty
      · exact h

/-- What a round of the loop does: the owner has the key now, and its mark. -/
structure Taken (pathKey : Path → Key) (g g' : Gate Path Key) (owner : Owner) (key : Key)
    (promoted : Bool) : Prop where
  active : g'.activeClaims = g.activeClaims.set key ⟨owner, promoted⟩
  owns : ∀ owner' key', g'.Owns owner' key' ↔ if key' = key then owner' = owner
    else g.Owns owner' key'
  nodup : ∀ owner' keys, g'.claimsByOwner.get? owner' = some keys → keys.Nodup
  nonempty : ∀ owner', g'.claimsByOwner.get? owner' = some [] →
    g.claimsByOwner.get? owner' = some []
  probes : g'.sourceProbes = g.sourceProbes.erase key
  others : ∀ owner' key' path, key' ≠ key → (g'.Dirty owner' key' path ↔ g.Dirty owner' key' path)
  marked : ∀ owner' path, g'.Dirty owner' key path → owner' = owner ∧ pathKey path = key
  refused : 0 < g'.refused key ↔ ∃ path, g'.Dirty owner key path
  kept : ∀ key', key' ≠ key → g'.refused key' = g.refused key'
  issued : g'.reconcile = g.reconcile ∧ g'.enqueued = g.enqueued ∧ g'.episodes = g.episodes

theorem Inv.take {taking : Option Owner} {promoted : Bool} (h : Inv pathKey taking g)
    (howner : owner ≠ "") (ht : Taken pathKey g g' owner key promoted) : Inv pathKey taking g' where
  inverse owner' key' := by
    rw [ht.owns]
    unfold Claimed
    rw [ht.active, Dict.get?_set]
    by_cases hkey : key' = key
    · rw [if_pos hkey, if_pos hkey]
      simp [eq_comm]
    · rw [if_neg hkey, if_neg hkey]
      exact h.inverse owner' key'
  nodup := ht.nodup
  nonempty owner' hget := h.nonempty owner' (ht.nonempty owner' hget)
  named key' claim hget := by
    rw [ht.active, Dict.get?_set] at hget
    split_ifs at hget
    · obtain rfl := Option.some.inj hget
      exact howner
    · exact h.named key' claim hget
  dirty owner' key' path hdirty := by
    unfold Claimed
    rw [ht.active, Dict.get?_set]
    by_cases hkey : key' = key
    · subst hkey
      rw [if_pos rfl]
      obtain ⟨rfl, hpath⟩ := ht.marked owner' path hdirty
      exact ⟨⟨_, rfl, rfl⟩, hpath⟩
    · rw [if_neg hkey]
      exact h.dirty owner' key' path ((ht.others owner' key' path hkey).1 hdirty)
  probes key' probe hget := by
    rw [ht.probes, Dict.get?_erase] at hget
    split_ifs at hget with hkey
    rw [ht.active, Dict.get?_set_of_ne _ hkey]
    exact h.probes key' probe hget
  refused key' := by
    by_cases hkey : key' = key
    · subst hkey
      rw [ht.refused]
      constructor
      · rintro ⟨path, hdirty⟩
        exact ⟨owner, path, hdirty⟩
      · rintro ⟨owner', path, hdirty⟩
        obtain ⟨rfl, -⟩ := ht.marked owner' path hdirty
        exact ⟨path, hdirty⟩
    · rw [ht.kept key' hkey, h.refused key']
      simp only [ht.others _ key' _ hkey]
  issued key' := by
    rw [ht.issued.1, ht.issued.2.1, ht.issued.2.2]
    exact h.issued key'

/-- What the round has done before the owner takes the key. -/
structure Ready (pathKey : Path → Key) (g m : Gate Path Key) (owner : Owner) (key : Key) : Prop where
  active : m.activeClaims = g.activeClaims
  ownsOther : ∀ owner' key', key' ≠ key → (m.Owns owner' key' ↔ g.Owns owner' key')
  ownsKey : ∀ owner', m.Owns owner' key → owner' = owner
  nodup : ∀ owner' keys, m.claimsByOwner.get? owner' = some keys → keys.Nodup
  nonempty : ∀ owner', m.claimsByOwner.get? owner' = some [] →
    g.claimsByOwner.get? owner' = some []
  probes : m.sourceProbes = g.sourceProbes.erase key
  others : ∀ owner' key' path, key' ≠ key → (m.Dirty owner' key' path ↔ g.Dirty owner' key' path)
  marked : ∀ owner' path, m.Dirty owner' key path → owner' = owner ∧ pathKey path = key
  refused : 0 < m.refused key ↔ ∃ path, m.Dirty owner key path
  kept : ∀ key', key' ≠ key → m.refused key' = g.refused key'
  issued : m.reconcile = g.reconcile ∧ m.enqueued = g.enqueued ∧ m.episodes = g.episodes

theorem owns_takeKey (m : Gate Path Key) (owner : Owner) (key : Key) (promoted : Bool)
    (owner' : Owner) (key' : Key) : (m.takeKey owner key promoted).Owns owner' key' ↔
      owner' = owner ∧ key' = key ∨ m.Owns owner' key' := by
  unfold Owns takeKey
  simp only [Dict.get?_set]
  by_cases howner : owner' = owner
  · subst howner
    rw [if_pos rfl]
    cases hget : m.claimsByOwner.get? owner' with
    | none => simp
    | some keys =>
      simp only [Option.getD_some, Option.some.injEq, exists_eq_left', true_and]
      split_ifs with hmem
      · constructor
        · exact .inr
        · rintro (rfl | h)
          · exact hmem
          · exact h
      · rw [List.mem_append, List.mem_singleton, or_comm]
  · simp [howner]

theorem Ready.take {m : Gate Path Key} (h : Ready pathKey g m owner key) (promoted : Bool) :
    Taken pathKey g (m.takeKey owner key promoted) owner key promoted where
  active := by
    rw [← h.active]
    rfl
  owns owner' key' := by
    rw [owns_takeKey]
    by_cases hkey : key' = key
    · subst hkey
      rw [if_pos rfl]
      simp only [and_true]
      exact ⟨fun hor => hor.elim (fun heq => heq) (h.ownsKey owner'), .inl⟩
    · rw [if_neg hkey, h.ownsOther owner' key' hkey]
      simp [hkey]
  nodup owner' keys hget := by
    replace hget : (m.claimsByOwner.set owner _).get? owner' = some keys := hget
    rw [Dict.get?_set] at hget
    split_ifs at hget with howner hmem
    · obtain rfl := Option.some.inj hget
      cases hold : m.claimsByOwner.get? owner with
      | none =>
        rw [hold] at hmem
        exact absurd hmem List.not_mem_nil
      | some keys => exact h.nodup owner keys hold
    · obtain rfl := Option.some.inj hget
      cases hold : m.claimsByOwner.get? owner with
      | none => exact List.nodup_singleton key
      | some keys =>
        rw [hold, Option.getD_some] at hmem
        rw [Option.getD_some]
        refine (h.nodup owner keys hold).append (List.nodup_singleton key) ?_
        intro x hx hx'
        exact hmem (List.mem_singleton.1 hx' ▸ hx)
    · exact h.nodup owner' keys hget
  nonempty owner' hget := by
    replace hget : (m.claimsByOwner.set owner _).get? owner' = some [] := hget
    rw [Dict.get?_set] at hget
    split_ifs at hget with howner hmem
    · rw [Option.some.inj hget] at hmem
      exact absurd hmem List.not_mem_nil
    · exact absurd (Option.some.inj hget) (List.append_ne_nil_of_right_ne_nil _ (List.cons_ne_nil _ _))
    · exact h.nonempty owner' hget
  probes := h.probes
  others := h.others
  marked := h.marked
  refused := h.refused
  kept := h.kept
  issued := h.issued

theorem erase_missing {V : Type} {d : Dict Key V} (h : d.get? key = none) : d.erase key = d :=
  Dict.eq_of_entries (Dict.erase_of_get?_none h)

/-- A key that nobody has. -/
theorem Inv.ready_free {taking : Option Owner} (h : Inv pathKey taking g)
    (hfree : g.activeClaims.get? key = none) (owner : Owner) :
    Ready pathKey g (g.cancelProbe owner key) owner key := by
  have hclaimed : ∀ owner', ¬ g.Claimed owner' key := by
    rintro owner' ⟨claim, hget, -⟩
    rw [hfree] at hget
    cases hget
  have howns : ∀ owner', ¬ g.Owns owner' key := fun owner' ho =>
    hclaimed owner' ((h.inverse owner' key).1 ho)
  have hclean : ∀ owner' path, ¬ g.Dirty owner' key path := fun owner' path hd =>
    hclaimed owner' (h.dirty owner' key path hd).1
  have hzero : g.refused key = 0 := by
    by_contra hne
    obtain ⟨owner', path, hd⟩ := (h.refused key).1 (Nat.pos_of_ne_zero hne)
    exact hclean owner' path hd
  unfold cancelProbe
  cases hprobe : g.sourceProbes.get? key with
  | none =>
    refine ⟨rfl, fun _ _ _ => Iff.rfl, fun owner' ho => absurd ho (howns owner'), h.nodup,
      fun _ hget => hget, (erase_missing hprobe).symm, fun _ _ _ _ => Iff.rfl,
      fun owner' path hd => absurd hd (hclean owner' path), ?_, fun _ _ => rfl, rfl, rfl, rfl⟩
    dsimp only
    rw [hzero]
    refine iff_of_false (Nat.lt_irrefl 0) ?_
    rintro ⟨path, hd⟩
    exact hclean owner path hd
  | some probe =>
    have hdirty : ∀ owner' key' path,
        ((({ g with sourceProbes := g.sourceProbes.erase key } : Gate Path Key).mark owner key
          probe.path).refuse key).Dirty owner' key' path ↔
            if owner' = owner ∧ key' = key then path = probe.path
            else g.Dirty owner' key' path := dirty_mark _ owner key probe.path
    refine ⟨rfl, fun _ _ _ => Iff.rfl, fun owner' ho => absurd ho (howns owner'), h.nodup,
      fun _ hget => hget, rfl, fun owner' key' path hkey => ?_, fun owner' path hd => ?_, ?_,
      fun key' hkey => Function.update_of_ne hkey _ _, rfl, rfl, rfl⟩
    · rw [hdirty, if_neg fun hand => hkey hand.2]
    · rw [hdirty] at hd
      split_ifs at hd with hand
      · exact ⟨hand.1, hd ▸ (h.probes key probe hprobe).2⟩
      · exact absurd hd (hclean owner' path)
    · refine iff_of_true ?_ ⟨probe.path, (hdirty owner key probe.path).2 (by simp)⟩
      show 0 < Function.update g.refused key (g.refused key + 1) key
      rw [Function.update_self]
      exact Nat.succ_pos _

theorem Inv.cancelProbe_claimed {taking : Option Owner} (h : Inv pathKey taking g)
    {claim : SourceClaim} (hget : g.activeClaims.get? key = some claim) (owner : Owner) :
    g.cancelProbe owner key = g ∧ g.sourceProbes.erase key = g.sourceProbes := by
  have hprobe : g.sourceProbes.get? key = none := by
    cases hprobe : g.sourceProbes.get? key with
    | none => rfl
    | some probe =>
      have hnone := (h.probes key probe hprobe).1
      rw [hget] at hnone
      cases hnone
  refine ⟨?_, erase_missing hprobe⟩
  unfold cancelProbe
  rw [hprobe]

/-- A key that the owner has already. -/
theorem Inv.ready_own {taking : Option Owner} (h : Inv pathKey taking g) {claim : SourceClaim}
    (hget : g.activeClaims.get? key = some claim) (hown : claim.owner = owner) :
    Ready pathKey g g owner key := by
  have hclaimed : ∀ owner', g.Claimed owner' key → owner' = owner := by
    rintro owner' ⟨claim', hget', rfl⟩
    rw [← hown, Option.some.inj (hget'.symm.trans hget)]
  refine ⟨rfl, fun _ _ _ => Iff.rfl, fun owner' ho => hclaimed owner' ((h.inverse owner' key).1 ho),
    h.nodup, fun _ hnil => hnil, (h.cancelProbe_claimed hget owner).2.symm, fun _ _ _ _ => Iff.rfl,
    fun owner' path hd => ?_, ?_, fun _ _ => rfl, rfl, rfl, rfl⟩
  · exact ⟨hclaimed owner' (h.dirty owner' key path hd).1, (h.dirty owner' key path hd).2⟩
  · rw [h.refused key]
    constructor
    · rintro ⟨owner', path, hd⟩
      exact ⟨path, hclaimed owner' (h.dirty owner' key path hd).1 ▸ hd⟩
    · rintro ⟨path, hd⟩
      exact ⟨owner, path, hd⟩

theorem moveDirty_rest (g : Gate Path Key) (previous owner : Owner) (key : Key) :
    ∃ dirty, g.moveDirty previous owner key = { g with dirtyDuringClaim := dirty } := by
  unfold moveDirty
  split
  · exact ⟨_, rfl⟩
  · split
    · exact ⟨_, rfl⟩
    · dsimp only
      split_ifs <;> exact ⟨_, rfl⟩

/-- The mark of the key, which only its owner may have, goes to the owner that takes it. -/
theorem dirty_moveDirty {previous : Owner} (hne : previous ≠ owner)
    (honly : ∀ owner' path, g.Dirty owner' key path → owner' = previous) (owner' : Owner)
    (key' : Key) (path' : Path) : (g.moveDirty previous owner key).Dirty owner' key' path' ↔
      if key' = key then owner' = owner ∧ g.Dirty previous key path'
      else g.Dirty owner' key' path' := by
  have hunmoved : (¬ ∃ path, g.Dirty previous key path) → (g.Dirty owner' key' path' ↔
      if key' = key then owner' = owner ∧ g.Dirty previous key path'
      else g.Dirty owner' key' path') := by
    intro hnone
    by_cases hkey : key' = key
    · subst hkey
      rw [if_pos rfl]
      refine iff_of_false (fun hd => ?_) fun hd => hnone ⟨path', hd.2⟩
      obtain rfl := honly owner' path' hd
      exact hnone ⟨path', hd⟩
    · rw [if_neg hkey]
  unfold moveDirty
  cases hprevious : g.dirtyDuringClaim.get? previous with
  | none =>
    apply hunmoved
    rintro ⟨path, dirty, hget, -⟩
    rw [hprevious] at hget
    cases hget
  | some dirty =>
    dsimp only
    cases hmark : dirty.get? key with
    | none =>
      apply hunmoved
      rintro ⟨path, dirty', hget, hpath⟩
      obtain rfl := Option.some.inj (hprevious.symm.trans hget)
      rw [hmark] at hpath
      cases hpath
    | some path =>
      dsimp only
      have hkept : (g.mark owner key path).dirtyDuringClaim.get? previous = some dirty := by
        show (g.dirtyDuringClaim.set owner _).get? previous = some dirty
        rw [Dict.get?_set_of_ne _ hne]
        exact hprevious
      have hhere : ∀ path', g.Dirty previous key path' ↔ path' = path := by
        intro path'
        constructor
        · rintro ⟨dirty', hget, hpath⟩
          obtain rfl := Option.some.inj (hprevious.symm.trans hget)
          exact Option.some.inj (hpath.symm.trans hmark)
        · rintro rfl
          exact ⟨dirty, hprevious, hmark⟩
      have hunmark := dirty_unmark key hkept owner' key' path'
      have hmoved := hunmark.trans (and_congr_right' (dirty_mark g owner key path owner' key' path'))
      have hgoal : (¬ (owner' = previous ∧ key' = key) ∧
          if owner' = owner ∧ key' = key then path' = path else g.Dirty owner' key' path') ↔
            if key' = key then owner' = owner ∧ g.Dirty previous key path'
            else g.Dirty owner' key' path' := by
        by_cases hkey : key' = key
        · subst hkey
          rw [if_pos rfl, hhere]
          simp only [and_true]
          by_cases howner : owner' = owner
          · subst howner
            simp [Ne.symm hne]
          · rw [if_neg howner]
            refine iff_of_false ?_ fun h => howner h.1
            rintro ⟨hnot, hd⟩
            exact hnot (honly owner' path' hd)
        · simp [hkey]
      have hall := hmoved.trans hgoal
      by_cases hempty : (dirty.erase key).keys = []
      · rw [if_pos hempty]
        rw [if_pos hempty] at hall
        exact hall
      · rw [if_neg hempty]
        rw [if_neg hempty] at hall
        exact hall

/-- A key of another owner. -/
theorem Inv.ready_other {taking : Option Owner} (h : Inv pathKey taking g) {claim : SourceClaim}
    (hget : g.activeClaims.get? key = some claim) (hother : claim.owner ≠ owner) :
    ∃ claims, removeKey g.claimsByOwner claim.owner key = some claims ∧
      Ready pathKey g (({ g with claimsByOwner := claims }).moveDirty claim.owner owner key) owner
        key := by
  have hclaimed : ∀ owner', g.Claimed owner' key → owner' = claim.owner := by
    rintro owner' ⟨claim', hget', rfl⟩
    rw [Option.some.inj (hget'.symm.trans hget)]
  have howns : g.Owns claim.owner key := (h.inverse claim.owner key).2 ⟨claim, hget, rfl⟩
  obtain ⟨claims, hremove, howns', hnodup, hnonempty⟩ := owns_removeKey howns h.nodup
  refine ⟨claims, hremove, ?_⟩
  have honly : ∀ owner' path, g.Dirty owner' key path → owner' = claim.owner :=
    fun owner' path hd => hclaimed owner' (h.dirty owner' key path hd).1
  have hdirty := @dirty_moveDirty _ _ _ { g with claimsByOwner := claims } owner key claim.owner
    hother honly
  obtain ⟨dirty, hrest⟩ :=
    moveDirty_rest ({ g with claimsByOwner := claims } : Gate Path Key) claim.owner owner key
  rw [hrest] at hdirty ⊢
  refine ⟨rfl, fun owner' key' hkey => ?_, fun owner' ho => ?_, hnodup, hnonempty,
    (h.cancelProbe_claimed hget owner).2.symm, fun owner' key' path hkey => ?_,
    fun owner' path hd => ?_, ?_, fun _ _ => rfl, rfl, rfl, rfl⟩
  · refine (howns' owner' key').trans ?_
    simp [hkey]
  · obtain ⟨hnot, ho⟩ := (howns' owner' key).1 ho
    exact absurd ⟨hclaimed owner' ((h.inverse owner' key).1 ho), rfl⟩ hnot
  · rw [hdirty, if_neg hkey]
    exact Iff.rfl
  · rw [hdirty, if_pos rfl] at hd
    exact ⟨hd.1, (h.dirty claim.owner key path hd.2).2⟩
  · show 0 < g.refused key ↔ _
    rw [h.refused key]
    constructor
    · rintro ⟨owner', path, hd⟩
      obtain rfl := honly owner' path hd
      exact ⟨path, (hdirty owner key path).2 (by rw [if_pos rfl]; exact ⟨rfl, hd⟩)⟩
    · rintro ⟨path, hd⟩
      rw [hdirty, if_pos rfl] at hd
      exact ⟨claim.owner, path, hd.2⟩

/-- A round never raises, and gives the key to the owner. -/
theorem Inv.claimKey {taking : Option Owner} (h : Inv pathKey taking g) (owner : Owner)
    (promotedKeys : List Key) (key : Key) :
    ∃ g' promoted, g.claimKey owner promotedKeys key = some (promoted, g') ∧
      Taken pathKey g g' owner key promoted ∧
      (promoted = true ↔ key ∈ promotedKeys ∨ ∃ claim, g.activeClaims.get? key = some claim ∧
        claim.promotedNestedInput = true) := by
  unfold Gate.claimKey
  cases hget : g.activeClaims.get? key with
  | none =>
    have hready := h.ready_free hget owner
    have hactive : (g.cancelProbe owner key).activeClaims.get? key = none := by
      rw [hready.active, hget]
    dsimp only
    rw [hactive]
    exact ⟨_, _, rfl, hready.take _, by simp⟩
  | some claim =>
    dsimp only
    rw [(h.cancelProbe_claimed hget owner).1, hget]
    dsimp only
    have hpromoted : (decide (key ∈ promotedKeys) || claim.promotedNestedInput) = true ↔
        key ∈ promotedKeys ∨ ∃ claim', some claim = some claim' ∧
          claim'.promotedNestedInput = true := by
      simp
    by_cases hown : claim.owner = "" ∨ claim.owner = owner
    · rw [if_pos hown]
      have hsame := hown.resolve_left (h.named key claim hget)
      exact ⟨_, _, rfl, (h.ready_own hget hsame).take _, hpromoted⟩
    · rw [if_neg hown]
      obtain ⟨claims, hremove, hready⟩ := h.ready_other hget fun heq => hown (.inr heq)
      rw [hremove]
      exact ⟨_, _, rfl, hready.take _, hpromoted⟩

/-- The claims that are promoted stay so. -/
def KeepsPromoted (g g' : Gate Path Key) : Prop :=
  ∀ key claim, g.activeClaims.get? key = some claim → claim.promotedNestedInput = true →
    ∃ claim', g'.activeClaims.get? key = some claim' ∧ claim'.promotedNestedInput = true

theorem Taken.keepsPromoted {promoted : Bool} (ht : Taken pathKey g g' owner key promoted)
    (hpromoted : ∀ claim, g.activeClaims.get? key = some claim →
      claim.promotedNestedInput = true → promoted = true) : KeepsPromoted g g' := by
  intro key' claim hget hclaim
  rw [ht.active, Dict.get?_set]
  by_cases hkey : key' = key
  · subst hkey
    rw [if_pos rfl]
    exact ⟨_, rfl, hpromoted claim hget hclaim⟩
  · rw [if_neg hkey]
    exact ⟨claim, hget, hclaim⟩

/-- The loop never raises. -/
theorem Inv.claimKeys {taking : Option Owner} (h : Inv pathKey taking g) (howner : owner ≠ "")
    (promotedKeys : List Key) (promoted : Bool) (keys : List Key) :
    ∃ result g', g.claimKeys owner promotedKeys promoted keys = some (result, g') ∧
      Inv pathKey taking g' ∧ KeepsPromoted g g' ∧
      ∀ key, g.Owns owner key ∨ key ∈ keys → g'.Owns owner key := by
  induction keys generalizing g promoted with
  | nil =>
    refine ⟨promoted, g, rfl, h, fun _ claim hget hclaim => ⟨claim, hget, hclaim⟩, ?_⟩
    rintro key (ho | hmem)
    · exact ho
    · exact absurd hmem List.not_mem_nil
  | cons key keys ih =>
    obtain ⟨m, source, hround, ht, hsource⟩ := h.claimKey owner promotedKeys key
    obtain ⟨result, g', hloop, hinv, hkeeps, howns⟩ := ih (h.take howner ht) (promoted || source)
    refine ⟨result, g', ?_, hinv, fun key' claim hget hclaim => ?_, ?_⟩
    · rw [Gate.claimKeys, hround, Option.bind_some]
      exact hloop
    · have hstays : KeepsPromoted g m := by
        apply ht.keepsPromoted
        intro claim hget hclaim
        exact hsource.2 (.inr ⟨claim, hget, hclaim⟩)
      obtain ⟨claim', hget', hclaim'⟩ := hstays key' claim hget hclaim
      exact hkeeps key' claim' hget' hclaim'
    · intro key' hor
      apply howns
      rw [ht.owns]
      by_cases hkey : key' = key
      · exact .inl (by rw [if_pos hkey])
      · rw [if_neg hkey]
        rcases hor with ho | hmem
        · exact .inl ho
        · exact .inr ((List.mem_cons.1 hmem).resolve_left hkey)

/-- A claim never raises. -/
theorem Inv.claim (h : Inv pathKey none g) (owner : Owner) (paths : List Path)
    (promotedKeys : List Key) :
    ∃ result g', g.claimPipelineSources pathKey owner paths promotedKeys = some (result, g') ∧
      Inv pathKey none g' ∧ KeepsPromoted g g' := by
  unfold claimPipelineSources
  by_cases hnothing : owner = "" ∨ paths = []
  · rw [if_pos hnothing]
    exact ⟨false, g, rfl, h, fun _ claim hget hclaim => ⟨claim, hget, hclaim⟩⟩
  · rw [if_neg hnothing]
    rw [not_or] at hnothing
    have hbegun : Inv pathKey (some owner) (g.setDefaultKeys owner) := by
      have howns : ∀ owner' key, (g.setDefaultKeys owner).Owns owner' key ↔ g.Owns owner' key := by
        intro owner' key
        unfold Owns setDefaultKeys
        dsimp only
        rw [Dict.get?_set]
        split_ifs with heq
        · subst heq
          cases g.claimsByOwner.get? owner' <;> simp
        · exact Iff.rfl
      refine ⟨fun owner' key => (howns owner' key).trans (h.inverse owner' key),
        fun owner' keys hget => ?_, fun owner' hget => ?_, h.named, h.dirty, h.probes, h.refused,
        h.issued⟩
      · replace hget : (g.claimsByOwner.set owner _).get? owner' = some keys := hget
        rw [Dict.get?_set] at hget
        split_ifs at hget with heq
        · obtain rfl := Option.some.inj hget
          cases hold : g.claimsByOwner.get? owner with
          | none => exact List.nodup_nil
          | some keys => exact h.nodup owner keys hold
        · exact h.nodup owner' keys hget
      · replace hget : (g.claimsByOwner.set owner _).get? owner' = some [] := hget
        rw [Dict.get?_set] at hget
        split_ifs at hget with heq
        · rw [heq]
        · exact absurd (h.nonempty owner' hget) (Option.some_ne_none owner').symm
    obtain ⟨result, g', hloop, hinv, hkeeps, howns⟩ :=
      hbegun.claimKeys hnothing.1 promotedKeys false (paths.map pathKey)
    refine ⟨result, g', hloop, ⟨hinv.inverse, hinv.nodup, fun owner' hget => ?_, hinv.named,
      hinv.dirty, hinv.probes, hinv.refused, hinv.issued⟩, hkeeps⟩
    obtain rfl := Option.some.inj (hinv.nonempty owner' hget)
    obtain ⟨path, hpath⟩ := List.exists_mem_of_ne_nil paths hnothing.2
    obtain ⟨keys, hkeys, hmem⟩ := howns (pathKey path) (.inr (List.mem_map_of_mem hpath))
    obtain rfl := Option.some.inj (hget.symm.trans hkeys)
    exact absurd hmem List.not_mem_nil

/-! ## Releases and probes -/

theorem Inv.owned_iff {taking : Option Owner} (h : Inv pathKey taking g) (owner : Owner) (key : Key) :
    key ∈ (g.claimsByOwner.get? owner).getD [] ↔ g.Claimed owner key := by
  rw [← h.inverse]
  unfold Owns
  cases g.claimsByOwner.get? owner <;> simp

theorem claimed_unique (howner : g.Claimed owner key) {owner' : Owner}
    (howner' : g.Claimed owner' key) : owner' = owner := by
  obtain ⟨claim, hget, rfl⟩ := howner
  obtain ⟨claim', hget', rfl⟩ := howner'
  rw [Option.some.inj (hget'.symm.trans hget)]

/-- The paths with a key among the marked ones. -/
theorem countP_marked {dirty : Dict Key Path}
    (hpath : ∀ key path, dirty.get? key = some path → pathKey path = key) (key : Key) :
    (dirty.entries.map (·.2)).countP (pathKey · = key) = if dirty.get? key = none then 0 else 1 := by
  have hcount : (dirty.entries.map (·.2)).countP (pathKey · = key) = dirty.keys.count key := by
    rw [Dict.keys, List.count, List.countP_map, List.countP_map]
    apply List.countP_congr
    intro entry hmem
    have hkey := hpath entry.1 entry.2 (Dict.mem_entries.1 hmem)
    simp [hkey]
  rw [hcount]
  split_ifs with hnone
  · exact List.count_eq_zero.2 (Dict.get?_eq_none.1 hnone)
  · exact List.count_eq_one_of_mem dirty.nodup (Dict.mem_keys.2 hnone)

/-- What the end of a claim enqueues: the marked path of each key, once. -/
theorem Inv.reconciled (h : Inv pathKey none g) (hne : owner ≠ "") :
    ∃ paths, (g.releasePipelineSourceClaims owner).reconcile = g.reconcile ++ paths ∧
      ∀ key, paths.countP (pathKey · = key) =
        if g.Claimed owner key ∧ 0 < g.refused key then 1 else 0 := by
  have hdirty : ∀ key path, ((g.dirtyDuringClaim.get? owner).getD ∅).get? key = some path ↔
      g.Dirty owner key path := by
    intro key path
    unfold Dirty
    cases g.dirtyDuringClaim.get? owner <;> simp
  refine ⟨((g.dirtyDuringClaim.get? owner).getD ∅).entries.map (·.2), ?_, fun key => ?_⟩
  · unfold releasePipelineSourceClaims
    rw [if_neg hne]
    dsimp only
    congr 2
    apply List.filter_eq_self.2
    intro entry hmem
    have hmarked := (hdirty entry.1 entry.2).1 (Dict.mem_entries.1 hmem)
    have howned := (h.owned_iff owner entry.1).2 (h.dirty owner entry.1 entry.2 hmarked).1
    rw [Dict.get?_filter, if_neg (by simpa using howned)]
    rfl
  · rw [countP_marked fun key path hget => (h.dirty owner key path ((hdirty key path).1 hget)).2]
    have hiff : ((g.dirtyDuringClaim.get? owner).getD ∅).get? key = none ↔
        ¬ (g.Claimed owner key ∧ 0 < g.refused key) := by
      constructor
      · rintro hnone ⟨hclaimed, hrefused⟩
        obtain ⟨owner', path, hd⟩ := (h.refused key).1 hrefused
        obtain rfl := claimed_unique hclaimed (h.dirty owner' key path hd).1
        rw [(hdirty key path).2 hd] at hnone
        cases hnone
      · intro hnot
        by_contra hsome
        obtain ⟨path, hget⟩ := Option.ne_none_iff_exists'.1 hsome
        have hd := (hdirty key path).1 hget
        exact hnot ⟨(h.dirty owner key path hd).1, (h.refused key).2 ⟨owner, path, hd⟩⟩
    by_cases hnone : ((g.dirtyDuringClaim.get? owner).getD ∅).get? key = none
    · rw [if_pos hnone, if_neg (hiff.1 hnone)]
    · rw [if_neg hnone, if_pos (not_not.1 fun hnot => hnone (hiff.2 hnot))]

theorem Inv.release (h : Inv pathKey none g) (owner : Owner) :
    Inv pathKey none (g.releasePipelineSourceClaims owner) := by
  by_cases hne : owner = ""
  · unfold releasePipelineSourceClaims
    rw [if_pos hne]
    exact h
  obtain ⟨paths, hreconcile, hcount⟩ := h.reconciled hne
  have howns : ∀ owner' key, (g.releasePipelineSourceClaims owner).Owns owner' key ↔
      owner' ≠ owner ∧ g.Owns owner' key := by
    intro owner' key
    unfold Owns releasePipelineSourceClaims
    rw [if_neg hne]
    dsimp only
    rw [Dict.get?_erase]
    split_ifs with heq <;> simp [heq]
  have hactive : ∀ key, (g.releasePipelineSourceClaims owner).activeClaims.get? key =
      if g.Claimed owner key then none else g.activeClaims.get? key := by
    intro key
    unfold releasePipelineSourceClaims
    rw [if_neg hne]
    dsimp only
    rw [Dict.get?_filter]
    by_cases hown : g.Claimed owner key
    · rw [if_pos hown, if_neg (by simpa using (h.owned_iff owner key).2 hown)]
    · rw [if_neg hown, if_pos (by simpa using fun hmem => hown ((h.owned_iff owner key).1 hmem))]
  have hclaimed : ∀ owner' key, (g.releasePipelineSourceClaims owner).Claimed owner' key ↔
      owner' ≠ owner ∧ g.Claimed owner' key := by
    intro owner' key
    constructor
    · rintro ⟨claim, hget, howner⟩
      rw [hactive] at hget
      split_ifs at hget with hown
      refine ⟨fun heq => hown ⟨claim, hget, howner.trans heq⟩, claim, hget, howner⟩
    · rintro ⟨hother, claim, hget, howner⟩
      refine ⟨claim, ?_, howner⟩
      rw [hactive, if_neg fun hown => hother (claimed_unique hown ⟨claim, hget, howner⟩)]
      exact hget
  have hdirty : ∀ owner' key path, (g.releasePipelineSourceClaims owner).Dirty owner' key path ↔
      owner' ≠ owner ∧ g.Dirty owner' key path := by
    intro owner' key path
    unfold Dirty releasePipelineSourceClaims
    rw [if_neg hne]
    dsimp only
    rw [Dict.get?_erase]
    split_ifs with heq <;> simp [heq]
  have hrefused : ∀ key, (g.releasePipelineSourceClaims owner).refused key =
      if g.Claimed owner key then 0 else g.refused key := by
    intro key
    unfold releasePipelineSourceClaims
    rw [if_neg hne]
    exact if_congr (h.owned_iff owner key) rfl rfl
  have hepisodes : ∀ key, (g.releasePipelineSourceClaims owner).episodes key =
      if g.Claimed owner key ∧ 0 < g.refused key then g.episodes key + 1 else g.episodes key := by
    intro key
    unfold releasePipelineSourceClaims
    rw [if_neg hne]
    exact if_congr (and_congr_left' (h.owned_iff owner key)) rfl rfl
  have hrest : (g.releasePipelineSourceClaims owner).sourceProbes = g.sourceProbes ∧
      (g.releasePipelineSourceClaims owner).enqueued = g.enqueued ∧
      (g.releasePipelineSourceClaims owner).claimsByOwner = g.claimsByOwner.erase owner := by
    unfold releasePipelineSourceClaims
    rw [if_neg hne]
    exact ⟨rfl, rfl, rfl⟩
  refine ⟨fun owner' key => ?_, fun owner' keys hget => ?_, fun owner' hget => ?_,
    fun key claim hget => ?_, fun owner' key path hd => ?_, fun key probe hget => ?_, fun key => ?_,
    fun key => ?_⟩
  · rw [howns, hclaimed, h.inverse]
  · rw [hrest.2.2, Dict.get?_erase] at hget
    split_ifs at hget
    exact h.nodup owner' keys hget
  · rw [hrest.2.2, Dict.get?_erase] at hget
    split_ifs at hget
    exact h.nonempty owner' hget
  · rw [hactive] at hget
    split_ifs at hget
    exact h.named key claim hget
  · obtain ⟨hother, hd⟩ := (hdirty owner' key path).1 hd
    exact ⟨(hclaimed owner' key).2 ⟨hother, (h.dirty owner' key path hd).1⟩,
      (h.dirty owner' key path hd).2⟩
  · rw [hrest.1] at hget
    rw [hactive]
    refine ⟨?_, (h.probes key probe hget).2⟩
    split_ifs
    · rfl
    · exact (h.probes key probe hget).1
  · rw [hrefused]
    by_cases hown : g.Claimed owner key
    · rw [if_pos hown]
      refine iff_of_false (Nat.lt_irrefl 0) ?_
      rintro ⟨owner', path, hd⟩
      obtain ⟨hother, hd⟩ := (hdirty owner' key path).1 hd
      exact hother (claimed_unique hown (h.dirty owner' key path hd).1)
    · rw [if_neg hown, h.refused key]
      constructor
      · rintro ⟨owner', path, hd⟩
        refine ⟨owner', path, (hdirty owner' key path).2 ⟨fun heq => hown ?_, hd⟩⟩
        exact heq ▸ (h.dirty owner' key path hd).1
      · rintro ⟨owner', path, hd⟩
        exact ⟨owner', path, ((hdirty owner' key path).1 hd).2⟩
  · have hold := h.issued key
    rw [List.countP_append] at hold
    rw [hreconcile, hrest.2.1, hepisodes, List.countP_append, List.countP_append, hcount]
    split_ifs <;> omega

theorem Inv.startSourceProbe (h : Inv pathKey none g) (path : Path)
    (allowOwned replaceActive ignored : Bool) :
    Inv pathKey none (g.startSourceProbe pathKey path allowOwned replaceActive ignored) := by
  have hprobe : ∀ (probe : SourceProbe Path) (next : Nat), pathKey probe.path = pathKey path →
      g.activeClaims.get? (pathKey path) = none →
      Inv pathKey none { g with
        sourceProbes := g.sourceProbes.set (pathKey path) probe, nextProbe := next } := by
    intro probe next hkey hfree
    refine ⟨h.inverse, h.nodup, h.nonempty, h.named, h.dirty, fun key probe' hget => ?_, h.refused,
      h.issued⟩
    replace hget : (g.sourceProbes.set (pathKey path) probe).get? key = some probe' := hget
    rw [Dict.get?_set] at hget
    split_ifs at hget with heq
    · obtain rfl := Option.some.inj hget
      exact ⟨heq ▸ hfree, hkey.trans heq.symm⟩
    · exact h.probes key probe' hget
  unfold Gate.startSourceProbe deferClaimedPath
  cases hclaim : g.activeClaims.get? (pathKey path) with
  | some claim =>
    have hdirty : ∀ owner' key' path', ((g.mark claim.owner (pathKey path) path).refuse
        (pathKey path)).Dirty owner' key' path' ↔
          if owner' = claim.owner ∧ key' = pathKey path then path' = path
          else g.Dirty owner' key' path' := dirty_mark g claim.owner (pathKey path) path
    have hrefused : ∀ key', ((g.mark claim.owner (pathKey path) path).refuse (pathKey path)).refused
        key' = if key' = pathKey path then g.refused (pathKey path) + 1 else g.refused key' :=
      fun key' => Function.update_apply _ _ _ _
    cases ignored with
    | true => exact h
    | false =>
      show Inv pathKey none ((g.mark claim.owner (pathKey path) path).refuse (pathKey path))
      refine ⟨h.inverse, h.nodup, h.nonempty, h.named, fun owner' key' path' hd => ?_, h.probes,
        fun key' => ?_, h.issued⟩
      · rw [hdirty] at hd
        split_ifs at hd with hand
        · obtain ⟨rfl, rfl⟩ := hand
          exact ⟨⟨claim, hclaim, rfl⟩, by rw [hd]⟩
        · exact h.dirty owner' key' path' hd
      · rw [hrefused]
        by_cases hkey : key' = pathKey path
        · rw [if_pos hkey]
          refine iff_of_true (Nat.succ_pos _) ⟨claim.owner, path, (hdirty _ _ _).2 ?_⟩
          rw [if_pos ⟨rfl, hkey⟩]
        · rw [if_neg hkey, h.refused key']
          have hsame : ∀ owner' path', ((g.mark claim.owner (pathKey path) path).refuse
              (pathKey path)).Dirty owner' key' path' ↔ g.Dirty owner' key' path' := by
            intro owner' path'
            rw [hdirty, if_neg fun hand => hkey hand.2]
          simp only [hsame]
  | none =>
    dsimp only
    cases ignored with
    | true => exact h
    | false =>
      rw [if_neg Bool.false_ne_true, if_neg Bool.false_ne_true]
      cases hprevious : g.sourceProbes.get? (pathKey path) with
      | none => exact hprobe _ _ rfl hclaim
      | some previous =>
        cases replaceActive with
        | true => exact hprobe _ _ rfl hclaim
        | false => exact hprobe _ _ (h.probes _ previous hprevious).2 hclaim

theorem Inv.endSourceProbe (h : Inv pathKey none g) (path : Path) (number : Nat) :
    Inv pathKey none (g.endSourceProbe pathKey path number) := by
  unfold Gate.endSourceProbe
  split_ifs
  · refine ⟨h.inverse, h.nodup, h.nonempty, h.named, h.dirty, fun key probe hget => ?_, h.refused,
      h.issued⟩
    replace hget : (g.sourceProbes.erase (pathKey path)).get? key = some probe := hget
    rw [Dict.get?_erase] at hget
    split_ifs at hget
    exact h.probes key probe hget
  · exact h

theorem activeClaims_probe (path : Path) (allowOwned replaceActive ignored : Bool) :
    (g.startSourceProbe pathKey path allowOwned replaceActive ignored).activeClaims =
      g.activeClaims := by
  unfold Gate.startSourceProbe deferClaimedPath
  cases ignored with
  | true => rfl
  | false =>
    cases g.activeClaims.get? (pathKey path) with
    | some claim => rfl
    | none =>
      dsimp only
      cases g.sourceProbes.get? (pathKey path) with
      | none => rfl
      | some previous => cases replaceActive <;> rfl

/-! ## Runs -/

variable [DecidableEq Path]

theorem Inv.enqueue (h : Inv pathKey none g) {path : Path} (hmem : path ∈ g.reconcile) :
    Inv pathKey none { g with
      reconcile := g.reconcile.erase path, enqueued := g.enqueued ++ [path] } := by
  refine ⟨h.inverse, h.nodup, h.nonempty, h.named, h.dirty, h.probes, h.refused, fun key => ?_⟩
  rw [← h.issued key]
  have hperm : (g.reconcile.erase path ++ (g.enqueued ++ [path])).Perm
      (g.reconcile ++ g.enqueued) := by
    rw [← List.append_assoc]
    refine (List.perm_append_singleton path _).trans ?_
    exact (List.perm_cons_erase hmem).symm.append_right g.enqueued
  exact hperm.countP_eq _

theorem inv_step {action : Action Path Key} (h : Inv pathKey none g)
    (hstep : step pathKey g action = some g') : Inv pathKey none g' := by
  cases action with
  | claim owner paths promotedKeys =>
    obtain ⟨result, g'', hclaim, hinv, -⟩ := h.claim owner paths promotedKeys
    rw [step, hclaim] at hstep
    obtain rfl := Option.some.inj hstep
    exact hinv
  | release owner =>
    obtain rfl := Option.some.inj hstep
    exact h.release owner
  | startProbe path allowOwned replaceActive ignored =>
    obtain rfl := Option.some.inj hstep
    exact h.startSourceProbe path allowOwned replaceActive ignored
  | endProbe path number =>
    obtain rfl := Option.some.inj hstep
    exact h.endSourceProbe path number
  | enqueue path =>
    rw [step] at hstep
    split_ifs at hstep with hmem
    obtain rfl := Option.some.inj hstep
    exact h.enqueue hmem

theorem inv_reachable (h : (machine pathKey).Reachable g) : Inv pathKey none g := by
  apply h.invariant inv_init
  intro s a t hinv hstep
  exact inv_step hinv hstep

/-- A promoted claim ends only when its owner releases it. -/
theorem promoted_stays {action : Action Path Key} (h : Inv pathKey none g)
    (hstep : step pathKey g action = some g') {claim : SourceClaim}
    (hget : g.activeClaims.get? key = some claim) (hpromoted : claim.promotedNestedInput = true) :
    (∃ claim', g'.activeClaims.get? key = some claim' ∧ claim'.promotedNestedInput = true) ∨
      action = .release claim.owner ∧ g'.activeClaims.get? key = none := by
  cases action with
  | claim owner paths promotedKeys =>
    obtain ⟨result, g'', hclaim, -, hkeeps⟩ := h.claim owner paths promotedKeys
    rw [step, hclaim] at hstep
    obtain rfl := Option.some.inj hstep
    exact .inl (hkeeps key claim hget hpromoted)
  | release owner =>
    obtain rfl := Option.some.inj hstep
    unfold releasePipelineSourceClaims
    by_cases hne : owner = ""
    · rw [if_pos hne]
      exact .inl ⟨claim, hget, hpromoted⟩
    · rw [if_neg hne]
      dsimp only
      rw [Dict.get?_filter]
      by_cases hown : key ∈ (g.claimsByOwner.get? owner).getD []
      · obtain ⟨claim', hget', howner⟩ := (h.owned_iff owner key).1 hown
        obtain rfl := Option.some.inj (hget.symm.trans hget')
        exact .inr ⟨by rw [howner], if_neg (by simpa using hown)⟩
      · exact .inl ⟨claim, by rw [if_pos (by simpa using hown), hget], hpromoted⟩
  | startProbe path allowOwned replaceActive ignored =>
    obtain rfl := Option.some.inj hstep
    rw [activeClaims_probe]
    exact .inl ⟨claim, hget, hpromoted⟩
  | endProbe path number =>
    obtain rfl := Option.some.inj hstep
    unfold Gate.endSourceProbe
    split_ifs <;> exact .inl ⟨claim, hget, hpromoted⟩
  | enqueue path =>
    rw [step] at hstep
    split_ifs at hstep
    obtain rfl := Option.some.inj hstep
    exact .inl ⟨claim, hget, hpromoted⟩

/-- The two tables of claims are inverse; marks belong to the owner of their key, and probes to keys
without one; no claim raises; promotion lasts; and the end of a claim enqueues a path of each key for
which something was refused, once, and nothing else, so that the enqueued paths of a key are as many
as its claims that ended so. -/
theorem claims_safe (pathKey : Path → Key) {g : Gate Path Key}
    (h : (machine pathKey).Reachable g) :
    (∀ owner key, g.Owns owner key ↔ g.Claimed owner key) ∧
    (∀ owner owner' key, g.Owns owner key → g.Owns owner' key → owner' = owner) ∧
    (∀ owner keys, g.claimsByOwner.get? owner = some keys → keys ≠ [] ∧ keys.Nodup) ∧
    (∀ owner key path, g.Dirty owner key path → g.Claimed owner key) ∧
    (∀ key probe, g.sourceProbes.get? key = some probe → g.activeClaims.get? key = none) ∧
    (∀ owner paths promotedKeys, (g.claimPipelineSources pathKey owner paths promotedKeys).isSome) ∧
    (∀ action g' key claim, step pathKey g action = some g' →
      g.activeClaims.get? key = some claim → claim.promotedNestedInput = true →
      (∃ claim', g'.activeClaims.get? key = some claim' ∧ claim'.promotedNestedInput = true) ∨
        action = .release claim.owner ∧ g'.activeClaims.get? key = none) ∧
    (∀ owner, owner ≠ "" →
      ∃ paths, (g.releasePipelineSourceClaims owner).reconcile = g.reconcile ++ paths ∧
        ∀ key, paths.countP (pathKey · = key) =
          if g.Claimed owner key ∧ 0 < g.refused key then 1 else 0) ∧
    ∀ key, (g.reconcile ++ g.enqueued).countP (pathKey · = key) = g.episodes key := by
  have hinv := inv_reachable h
  refine ⟨hinv.inverse, fun owner owner' key ho ho' => ?_, fun owner keys hget => ⟨?_, ?_⟩,
    fun owner key path hd => (hinv.dirty owner key path hd).1,
    fun key probe hget => (hinv.probes key probe hget).1, fun owner paths promotedKeys => ?_,
    fun action g' key claim hstep => promoted_stays hinv hstep, fun owner => hinv.reconciled,
    hinv.issued⟩
  · exact claimed_unique ((hinv.inverse owner key).1 ho) ((hinv.inverse owner' key).1 ho')
  · rintro rfl
    exact absurd (hinv.nonempty owner hget) (Option.some_ne_none owner).symm
  · exact hinv.nodup owner keys hget
  · obtain ⟨result, g', hclaim, -⟩ := hinv.claim owner paths promotedKeys
    rw [hclaim]
    rfl

/-- A probe of 11 is cancelled by the claim of "a", an event of 21 is refused, and the key of 21 goes
to "b". -/
def transferRun : List (Action Nat Nat) :=
  [.startProbe 11 false true false, .claim "a" [10, 20] [1], .startProbe 21 false true false,
    .claim "b" [25] []]

theorem claims_safe_transfer : ∃ g, (machine (· / 10)).exec {} transferRun = some g ∧
    g.Claimed "b" 2 ∧ 0 < g.refused 2 ∧
    ∃ paths, (g.releasePipelineSourceClaims "b").reconcile = paths ∧
      paths.countP (· / 10 = 2) = 1 := by
  obtain ⟨g, hexec, hstate⟩ : ∃ g, (machine (· / 10)).exec {} transferRun = some g ∧
      (g.activeClaims.get? 2, g.refused 2, g.reconcile) = (some ⟨"b", false⟩, 1, []) :=
    ⟨_, rfl, rfl⟩
  simp only [Prod.mk.injEq] at hstate
  obtain ⟨hget, hrefused, hreconcile⟩ := hstate
  have hclaimed : g.Claimed "b" 2 := ⟨_, hget, rfl⟩
  obtain ⟨paths, hpaths, hcount⟩ :=
    (claims_safe (· / 10) (Machine.Reachable.of_exec hexec)).2.2.2.2.2.2.2.1 "b" (by decide)
  refine ⟨g, hexec, hclaimed, by omega, paths, by rw [hpaths, hreconcile, List.nil_append], ?_⟩
  rw [hcount 2, if_pos ⟨hclaimed, by omega⟩]

end Sunpack.SourceClaims.Gate
