import Sunpack.PathLease.Calls
import Sunpack.PathLease.Effects

/-!
# Grants and the table

What was returned to the callers is covered by the table and its pins (`Backed`), and paths of two
owners in the table do not conflict.
-/

namespace Sunpack.PathLease

open Lib

variable {names : PathNames} {Owner Lease : Type} [DecidableEq Owner]

/-- The paths of two owners do not conflict. -/
def LeaseTable.Apart (t : LeaseTable names Owner) : Prop :=
  ∀ o o' k k' p q, o ≠ o' → t.Holds o k p → t.Holds o' k' q → ¬ Conflict p q

structure Backed [DecidableEq Lease] (t : LeaseTable names Owner) (pinning : PinTable Owner Lease)
    (grants : List (Grant names Owner Lease)) : Prop where
  apart : t.Apart
  pinned : ∀ o l keys, (pinning.pinsOf o).get? l = some keys →
    ∃ g ∈ grants, g.owner = o ∧ g.lease = some l ∧ g.paths.map (·.key) = keys
  granted : ∀ g ∈ grants, ∀ l, g.lease = some l →
    (pinning.pinsOf g.owner).get? l = some (g.paths.map (·.key))
  covered : ∀ g ∈ grants, ∀ p ∈ g.paths, ∃ e, t.Holds g.owner p.key e ∧ Covers e p

variable {t t' : LeaseTable names Owner} {pinning pinning' : PinTable Owner Lease}
  {grants : List (Grant names Owner Lease)} {g : Grant names Owner Lease} {owner : Owner}
  {lease : Lease} {key : Text} {paths : List (LeasePath names)}

theorem backed_empty [DecidableEq Lease] : Backed ({} : LeaseTable names Owner) ({} : PinTable Owner Lease) [] where
  apart _ _ _ _ _ _ _ h := absurd h (by simp [LeaseTable.Holds, LeaseTable.pathsOf])
  pinned _ _ _ h := absurd h (by simp [PinTable.pinsOf])
  granted _ h := absurd h List.not_mem_nil
  covered _ h := absurd h List.not_mem_nil

/-! ## The history -/

theorem leased_iff : leased grants owner key = true ↔
    ∃ g ∈ grants, g.owner = owner ∧ (∃ l, g.lease = some l) ∧ key ∈ g.paths.map (·.key) := by
  simp only [leased, List.any_eq_true, decide_eq_true_eq, Option.isSome_iff_exists]

theorem mem_releaseGrants : g ∈ releaseGrants grants owner ↔ g ∈ grants ∧ g.owner ≠ owner := by
  rw [releaseGrants, List.mem_filter, decide_eq_true_eq]

/-- Leases are not shrunk. -/
theorem mem_shrinkClaims_lease {kept : Text → Bool} {l : Lease} (hl : g.lease = some l) :
    g ∈ shrinkClaims grants owner kept ↔ g ∈ grants := by
  rw [shrinkClaims, List.mem_map]
  constructor
  · rintro ⟨g', hg', heq⟩
    split_ifs at heq with hclaim
    · rw [← heq] at hl
      exact absurd (hclaim.2.symm.trans hl) (by simp)
    · exact heq ▸ hg'
  · intro hg
    refine ⟨g, hg, ?_⟩
    have hlease : ¬ (g.owner = owner ∧ g.lease = none) := by
      rw [hl]
      simp
    rw [if_neg hlease]

/-- A shrunk grant comes from a grant, and what it kept was to be kept. -/
theorem of_mem_shrinkClaims {kept : Text → Bool} (hg : g ∈ shrinkClaims grants owner kept) :
    ∃ g' ∈ grants, g'.owner = g.owner ∧ g'.lease = g.lease ∧ ∀ p ∈ g.paths, p ∈ g'.paths ∧
      (g.owner = owner → g.lease = none → kept p.key = true) := by
  rw [shrinkClaims, List.mem_map] at hg
  obtain ⟨g', hg', heq⟩ := hg
  refine ⟨g', hg', ?_⟩
  split_ifs at heq with hclaim
  · subst heq
    refine ⟨rfl, rfl, fun p hp => ?_⟩
    obtain ⟨hp, hkept⟩ := List.mem_filter.1 hp
    exact ⟨hp, fun _ _ => hkept⟩
  · subst heq
    exact ⟨rfl, rfl, fun p hp => ⟨hp, fun ho hl => absurd ⟨ho, hl⟩ hclaim⟩⟩

variable [DecidableEq Lease]

theorem mem_giveBack :
    g ∈ giveBack grants owner lease ↔ g ∈ grants ∧ ¬ (g.owner = owner ∧ g.lease = some lease) := by
  rw [giveBack, List.mem_filter, decide_eq_true_eq]

/-! ## Sections -/

/-- Paths that go from the table leave the others apart. -/
theorem LeaseTable.Apart.mono (h : t.Apart) (hsub : ∀ o k q, t'.Holds o k q → t.Holds o k q) :
    t'.Apart :=
  fun o o' k k' p q hne hp hq => h o o' k k' p q hne (hsub o k p hp) (hsub o' k' q hq)

theorem Backed.key_pinned (h : Backed t pinning grants)
    (hcounted : pinning.Counted) (hg : g ∈ grants) {l : Lease} (hl : g.lease = some l)
    (hkey : key ∈ g.paths.map (·.key)) : 0 < pinning.pinCounts.countAt g.owner key :=
  hcounted.pinned_iff.2 ⟨l, _, h.granted g hg l hl, hkey⟩

theorem Backed.leased_pinned (h : Backed t pinning grants) (hcounted : pinning.Counted)
    (hleased : leased grants owner key = true) : 0 < pinning.pinCounts.countAt owner key := by
  obtain ⟨g, hg, rfl, ⟨l, hl⟩, hkey⟩ := leased_iff.1 hleased
  exact h.key_pinned hcounted hg hl hkey

/-- The owner gives everything back. -/
theorem Backed.release (h : Backed t pinning grants)
    (hholds : ∀ o k q, t'.Holds o k q ↔ t.Holds o k q ∧ ¬ (o = owner ∧ True)) :
    Backed t' (pinning.forget owner) (releaseGrants grants owner) where
  apart := h.apart.mono fun o k q hq => ((hholds o k q).1 hq).1
  pinned o l keys hget := by
    rw [PinTable.pinsOf_forget] at hget
    split_ifs at hget with ho
    · exact absurd hget (by simp)
    · obtain ⟨g, hg, howner, hlease, hkeys⟩ := h.pinned o l keys hget
      exact ⟨g, mem_releaseGrants.2 ⟨hg, howner ▸ ho⟩, howner, hlease, hkeys⟩
  granted g hg l hl := by
    obtain ⟨hg, ho⟩ := mem_releaseGrants.1 hg
    rw [PinTable.pinsOf_forget, if_neg ho]
    exact h.granted g hg l hl
  covered g hg p hp := by
    obtain ⟨hg, ho⟩ := mem_releaseGrants.1 hg
    obtain ⟨e, he, hcovers⟩ := h.covered g hg p hp
    exact ⟨e, (hholds _ _ _).2 ⟨he, fun h => ho h.1⟩, hcovers⟩

/-- A lease is unpinned; its paths stay in the table. -/
theorem Backed.unpin (h : Backed t pinning grants)
    (hpins : ∀ o l, (pinning'.pinsOf o).get? l =
      if o = owner ∧ l = lease then none else (pinning.pinsOf o).get? l) :
    Backed t pinning' (giveBack grants owner lease) where
  apart := h.apart
  pinned o l keys hget := by
    rw [hpins] at hget
    split_ifs at hget with hboth
    obtain ⟨g, hg, howner, hlease, hkeys⟩ := h.pinned o l keys hget
    refine ⟨g, mem_giveBack.2 ⟨hg, fun hg' => hboth ?_⟩, howner, hlease, hkeys⟩
    exact ⟨howner.symm.trans hg'.1, Option.some.inj (hlease.symm.trans hg'.2)⟩
  granted g hg l hl := by
    obtain ⟨hg, hother⟩ := mem_giveBack.1 hg
    have hnot : ¬ (g.owner = owner ∧ l = lease) := fun h => hother ⟨h.1, h.2 ▸ hl⟩
    rw [hpins, if_neg hnot]
    exact h.granted g hg l hl
  covered g hg p hp := h.covered g (mem_giveBack.1 hg).1 p hp

theorem Backed.congr (h : Backed t pinning grants)
    (hpins : ∀ o l, (pinning'.pinsOf o).get? l = (pinning.pinsOf o).get? l) :
    Backed t pinning' grants where
  apart := h.apart
  pinned o l keys hget := h.pinned o l keys ((hpins o l).symm.trans hget)
  granted g hg l hl := (hpins g.owner l).trans (h.granted g hg l hl)
  covered := h.covered

/-- Paths that no lease pins are removed, and the claims of the owner lose some paths. -/
theorem Backed.remove (h : Backed t pinning grants) (hcounted : pinning.Counted)
    {gone : Text → Prop} (hholds : ∀ o k q, t'.Holds o k q ↔ t.Holds o k q ∧ ¬ (o = owner ∧ gone k))
    (hgone : ∀ k, gone k → pinning.pinCounts.countAt owner k = 0) {kept : Text → Bool}
    (hkept : ∀ k, kept k = true → ¬ gone k) :
    Backed t' pinning (shrinkClaims grants owner kept) where
  apart := h.apart.mono fun o k q hq => ((hholds o k q).1 hq).1
  pinned o l keys hget := by
    obtain ⟨g, hg, howner, hlease, hkeys⟩ := h.pinned o l keys hget
    exact ⟨g, (mem_shrinkClaims_lease hlease).2 hg, howner, hlease, hkeys⟩
  granted g hg l hl := h.granted g ((mem_shrinkClaims_lease hl).1 hg) l hl
  covered g hg p hp := by
    obtain ⟨g', hg', howner, hlease, hpaths⟩ := of_mem_shrinkClaims hg
    obtain ⟨hp', hkeep⟩ := hpaths p hp
    obtain ⟨e, he, hcovers⟩ := h.covered g' hg' p hp'
    refine ⟨e, ?_, hcovers⟩
    rw [← howner, hholds]
    refine ⟨he, ?_⟩
    rintro ⟨ho, hgo⟩
    cases hl : g.lease with
    | none => exact hkept p.key (hkeep (howner ▸ ho) hl) hgo
    | some l =>
      have hpos := h.key_pinned hcounted hg' (hlease.trans hl) (List.mem_map_of_mem hp')
      rw [ho, hgone p.key hgo] at hpos
      exact absurd hpos (Nat.lt_irrefl 0)

/-- `release_lease`. -/
theorem Backed.releaseLease (h : Backed t pinning grants) {idle : List Text}
    (hunpins : pinning.Unpins owner lease pinning' idle)
    (hholds : ∀ o k q, t'.Holds o k q ↔ t.Holds o k q ∧ ¬ (o = owner ∧ k ∈ idle)) :
    Backed t' pinning' (releaseGrant grants owner lease) := by
  have hback := h.unpin hunpins.pins
  unfold releaseGrant
  refine hback.remove hunpins.counted hholds hunpins.idle_unpinned fun k hk hidle => ?_
  rcases Bool.or_eq_true_iff.1 hk with hleased | hnone
  · have hpos := hback.leased_pinned hunpins.counted hleased
    rw [hunpins.idle_unpinned k hidle] at hpos
    exact absurd hpos (Nat.lt_irrefl 0)
  · obtain ⟨keys, hget, hmem⟩ := hunpins.idle_keys k hidle
    obtain ⟨g, hg, howner, hlease, hkeys⟩ := h.pinned owner lease keys hget
    have hany : grants.any (fun g => g.owner = owner ∧ g.lease = some lease ∧
        k ∈ g.paths.map (·.key)) = true := by
      rw [List.any_eq_true]
      exact ⟨g, hg, decide_eq_true ⟨howner, hlease, hkeys ▸ hmem⟩⟩
    rw [hany] at hnone
    exact absurd hnone (by decide)

/-- The owner gives its idle paths up. -/
theorem Backed.dropIdle (h : Backed t pinning grants) (hcounted : pinning.Counted)
    (hholds : ∀ o k q, t'.Holds o k q ↔
      t.Holds o k q ∧ ¬ (o = owner ∧ pinning.pinCounts.countAt owner k = 0)) :
    Backed t' pinning (giveUpIdle grants owner) := by
  refine h.remove hcounted hholds (fun _ => id) fun k hk hzero => ?_
  have hpos := h.leased_pinned hcounted hk
  rw [hzero] at hpos
  exact absurd hpos (Nat.lt_irrefl 0)

/-- Nobody else is in the way, and what the owner had already agrees with the snapshot. -/
structure Claimable (t : LeaseTable names Owner) (owner : Owner)
    (paths : List (LeasePath names)) : Prop where
  free : ∀ q ∈ paths, ∀ o ≠ owner, ∀ k p, t.Holds o k p → ¬ Blocks p q
  recorded : ∀ q ∈ paths, ∀ e, t.Holds owner q.key e → Covers e q
  nodup : (paths.map (·.key)).Nodup

theorem Claimable.keys_free (h : Claimable t owner paths) (hindexed : t.Indexed) :
    ∀ p ∈ paths, ∀ o ≠ owner, ∀ q, ¬ t.Holds o p.key q := fun p hp o ho q hq =>
  h.free p hp o ho p.key q hq (.inl (hindexed.keyed o p.key q hq))

theorem Claimable.apart (h : Claimable t owner paths) (hapart : t.Apart)
    (hclaims : t.Claims owner paths t') : t'.Apart := by
  have hnew (o : Owner) (ho : o ≠ owner) (k k' : Text) (p e : LeasePath names)
      (hp : t.Holds o k p) (he : t'.Holds owner k' e) : ¬ Conflict p e := by
    rcases hclaims.origin k' e he with hold | hmem
    · exact hapart o owner k k' p e ho hp hold
    · intro hconflict
      exact h.free e hmem o ho k p hp hconflict.blocks
  intro o o' k k' p q hne hp hq hconflict
  by_cases ho : o = owner
  · have ho' : o' ≠ owner := fun h => hne (ho.trans h.symm)
    rw [hclaims.others o' ho'] at hq
    exact hnew o' ho' k' k q p hq (ho ▸ hp) hconflict.symm
  · rw [hclaims.others o ho] at hp
    by_cases ho' : o' = owner
    · exact hnew o ho k k' p q hp (ho' ▸ hq) hconflict
    · rw [hclaims.others o' ho'] at hq
      exact hapart o o' k k' p q hne hp hq hconflict

/-- The new snapshot is covered. -/
theorem Claimable.covers (h : Claimable t owner paths) (hclaims : t.Claims owner paths t') :
    ∀ p ∈ paths, ∃ e, t'.Holds owner p.key e ∧ Covers e p := by
  intro p hp
  obtain ⟨e, he⟩ := hclaims.held p hp
  refine ⟨e, he, ?_⟩
  rcases hclaims.origin p.key e he with hold | hmem
  · exact h.recorded p hp e hold
  · have hkey : e.key = p.key := hclaims.indexed.keyed owner p.key e he
    rw [List.inj_on_of_nodup_map h.nodup hmem hp hkey]
    exact Covers.refl p

/-- A claim, of a lease or of `replace`. -/
theorem Backed.claim (h : Backed t pinning grants) (hclaimable : Claimable t owner paths)
    (hclaims : t.Claims owner paths t') {l? : Option Lease}
    (hpins : ∀ o l, (pinning'.pinsOf o).get? l =
      if o = owner ∧ some l = l? then some (paths.map (·.key)) else (pinning.pinsOf o).get? l)
    (hfresh : ∀ l, l? = some l → (pinning.pinsOf owner).get? l = none) :
    Backed t' pinning' (grants ++ [⟨owner, l?, paths⟩]) where
  apart := hclaimable.apart h.apart hclaims
  pinned o l keys hget := by
    rw [hpins] at hget
    split_ifs at hget with hboth
    · refine ⟨⟨owner, l?, paths⟩, List.mem_append_right _ (List.mem_singleton_self _), hboth.1.symm,
        hboth.2.symm, Option.some.inj hget⟩
    · obtain ⟨g, hg, howner, hlease, hkeys⟩ := h.pinned o l keys hget
      exact ⟨g, List.mem_append_left _ hg, howner, hlease, hkeys⟩
  granted g hg l hl := by
    rw [hpins]
    rcases List.mem_append.1 hg with hg | hg
    · have hget := h.granted g hg l hl
      split_ifs with hboth
      · rw [hboth.1, hfresh l hboth.2.symm] at hget
        exact absurd hget (by simp)
      · exact hget
    · rw [List.mem_singleton] at hg
      subst hg
      rw [if_pos ⟨rfl, hl.symm⟩]
  covered g hg p hp := by
    rcases List.mem_append.1 hg with hg | hg
    · obtain ⟨e, he, hcovers⟩ := h.covered g hg p hp
      refine ⟨e, ?_, hcovers⟩
      by_cases ho : g.owner = owner
      · rw [ho] at he ⊢
        exact hclaims.kept p.key e he
      · exact (hclaims.others g.owner ho p.key e).2 he
    · rw [List.mem_singleton] at hg
      subst hg
      exact hclaimable.covers hclaims p hp

end Sunpack.PathLease
