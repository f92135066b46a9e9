import Sunpack.PathLease.Paths
import Sunpack.Lib.Tally
import Mathlib.Data.List.Dedup

/-!
# The table of leased paths

`_lease_paths` of `_PathLeaseRegistry` with the four indexes kept next to it, and the two sections
that change them, `_claim` and `_remove_paths`. `Indexed` says that the indexes are those of the
paths.

An owner is the id of a request, never empty, so a lookup is true when it finds an owner.
-/

namespace Sunpack.PathLease

open Lib

structure LeaseTable (names : PathNames) (Owner : Type) where
  leasePaths : Dict Owner (Dict Text (LeasePath names)) := ∅
  exactOwners : Dict Text Owner := ∅
  entriesByKey : Dict Text (LeasePath names) := ∅
  directoryOwners : Dict Text (Dict Owner Nat) := ∅
  prefixOwners : Dict Text (Dict Owner Nat) := ∅
  /-- History: the owner of each path that was given up. -/
  gaveUp : List Owner := []

namespace LeaseTable

variable {names : PathNames} {Owner : Type} [DecidableEq Owner]

def pathsOf (t : LeaseTable names Owner) (owner : Owner) : Dict Text (LeasePath names) :=
  (t.leasePaths.get? owner).getD ∅

/-- The owner has the path under the key. -/
def Holds (t : LeaseTable names Owner) (owner : Owner) (key : Text) (p : LeasePath names) : Prop :=
  (t.pathsOf owner).get? key = some p

/-! ## Reading the indexes -/

/-- What one candidate adds to the blockers. -/
def blockersOf (t : LeaseTable names Owner) (candidate : LeasePath names) : List Owner :=
  (t.exactOwners.get? candidate.key).toList ++
    if candidate.resolvedKey = [] then []
    else
      candidate.prefixes.flatMap (fun key => (t.directoryOwners.row key).keys) ++
        (t.prefixOwners.row candidate.resolvedKey).keys

/-- `_blocking_owners`, a set. -/
def blockingOwners (t : LeaseTable names Owner) (owner : Owner)
    (candidates : List (LeasePath names)) : List Owner :=
  ((candidates.flatMap t.blockersOf).filter fun blocker => blocker ≠ owner).dedup

/-! ## Claiming and removing -/

/-- One path of `_claim`. A path the owner has already is left as it is. -/
def claimPath (owner : Owner) (t : LeaseTable names Owner) (path : LeasePath names) :
    LeaseTable names Owner :=
  if ((t.pathsOf owner).get? path.key).isSome then t
  else
    { t with
      leasePaths := t.leasePaths.set owner ((t.pathsOf owner).set path.key path)
      exactOwners := t.exactOwners.set path.key owner
      entriesByKey := t.entriesByKey.set path.key path
      directoryOwners := if path.resolvedKey = [] then t.directoryOwners
        else t.directoryOwners.addAll path.directoryKeys owner
      prefixOwners := if path.resolvedKey = [] then t.prefixOwners
        else t.prefixOwners.addAll path.prefixes owner }

/-- The paths part of `_claim`. -/
def claim (t : LeaseTable names Owner) (owner : Owner) (paths : List (LeasePath names)) :
    LeaseTable names Owner :=
  paths.foldl (claimPath owner) { t with leasePaths := t.leasePaths.set owner (t.pathsOf owner) }

/-- One key of `_remove_paths`, with the flag that is returned in the end. There is no result where
an index lacks the owner (`KeyError`). -/
def removePath (owner : Owner) (s : LeaseTable names Owner × Bool) (key : Text) :
    Option (LeaseTable names Owner × Bool) :=
  let t := s.1
  match (t.pathsOf owner).get? key with
  | none => some s
  | some path => do
    let mine := t.exactOwners.get? path.key = some owner
    let directories ← if path.resolvedKey = [] then some t.directoryOwners
      else t.directoryOwners.removeAll path.directoryKeys owner
    let prefixes ← if path.resolvedKey = [] then some t.prefixOwners
      else t.prefixOwners.removeAll path.prefixes owner
    some
      ({ leasePaths := t.leasePaths.set owner ((t.pathsOf owner).erase key)
         exactOwners := if mine then t.exactOwners.erase path.key else t.exactOwners
         entriesByKey := if mine then t.entriesByKey.erase path.key else t.entriesByKey
         directoryOwners := directories
         prefixOwners := prefixes
         gaveUp := t.gaveUp ++ [owner] }, true)

/-- `_remove_paths`. -/
def removePaths (t : LeaseTable names Owner) (owner : Owner) (keys : List Text) :
    Option (LeaseTable names Owner × Bool) :=
  keys.foldlM (removePath owner) (t, false)

/-! ## The indexes are those of the paths -/

structure Indexed (t : LeaseTable names Owner) : Prop where
  keyed : ∀ owner key p, t.Holds owner key p → p.key = key
  exact : ∀ key owner, t.exactOwners.get? key = some owner ↔ ∃ p, t.Holds owner key p
  entries : ∀ key p, t.entriesByKey.get? key = some p ↔ ∃ owner, t.Holds owner key p
  directories : ∀ key owner, t.directoryOwners.countAt key owner =
    (t.pathsOf owner).total fun p => p.directoryKeys.count key
  prefixes : ∀ key owner, t.prefixOwners.countAt key owner =
    (t.pathsOf owner).total fun p => p.prefixes.count key
  directoriesTight : t.directoryOwners.Tight
  prefixesTight : t.prefixOwners.Tight

theorem indexed_empty : Indexed ({} : LeaseTable names Owner) where
  keyed _ _ _ h := absurd h (by simp [Holds, pathsOf])
  exact _ _ := by simp [Holds, pathsOf]
  entries _ _ := by simp [Holds, pathsOf]
  directories _ _ := rfl
  prefixes _ _ := rfl
  directoriesTight := Dict.tight_empty
  prefixesTight := Dict.tight_empty

variable {t t' : LeaseTable names Owner} {owner owner' : Owner} {key : Text}
  {p q : LeasePath names}

theorem pathsOf_set (t : LeaseTable names Owner) (owner owner' : Owner)
    (paths : Dict Text (LeasePath names)) :
    ((t.leasePaths.set owner paths).get? owner').getD ∅ =
      if owner' = owner then paths else t.pathsOf owner' := by
  rw [Dict.get?_set]
  split_ifs <;> rfl

/-- No two owners have one key. -/
theorem Indexed.owner_unique (h : t.Indexed) (hp : t.Holds owner key p)
    (hq : t.Holds owner' key q) : owner = owner' := by
  have h₁ := (h.exact key owner).2 ⟨p, hp⟩
  have h₂ := (h.exact key owner').2 ⟨q, hq⟩
  exact Option.some.inj (h₁.symm.trans h₂)

theorem Indexed.directory_pos (h : t.Indexed) :
    0 < t.directoryOwners.countAt key owner ↔
      ∃ k p, t.Holds owner k p ∧ key ∈ p.directoryKeys := by
  rw [h.directories, Dict.total_pos]
  simp only [List.count_pos_iff]
  rfl

theorem Indexed.prefix_pos (h : t.Indexed) :
    0 < t.prefixOwners.countAt key owner ↔ ∃ k p, t.Holds owner k p ∧ key ∈ p.prefixes := by
  rw [h.prefixes, Dict.total_pos]
  simp only [List.count_pos_iff]
  rfl

theorem Indexed.mem_blockersOf (h : t.Indexed) :
    owner ∈ t.blockersOf q ↔ ∃ k p, t.Holds owner k p ∧ Blocks p q := by
  rw [blockersOf, if_neg q.resolved_ne, List.mem_append, List.mem_append, Option.mem_toList,
    h.exact, List.mem_flatMap, h.prefixesTight.mem_row, h.prefix_pos]
  simp only [h.directoriesTight.mem_row, h.directory_pos]
  constructor
  · rintro (⟨p, hp⟩ | ⟨k, hk, key, p, hp, hmem⟩ | ⟨key, p, hp, hmem⟩)
    · exact ⟨q.key, p, hp, .inl (h.keyed _ _ _ hp)⟩
    · exact ⟨key, p, hp, .inr (.inl ⟨k, hk, hmem⟩)⟩
    · exact ⟨key, p, hp, .inr (.inr hmem)⟩
  · rintro ⟨key, p, hp, hkey | ⟨k, hk, hmem⟩ | hmem⟩
    · have := h.keyed _ _ _ hp
      exact .inl ⟨p, by rwa [← hkey, this]⟩
    · exact .inr (.inl ⟨k, hk, key, p, hp, hmem⟩)
    · exact .inr (.inr ⟨key, p, hp, hmem⟩)

/-- The blockers are the other owners with a path in the way. -/
theorem Indexed.mem_blockingOwners (h : t.Indexed) {paths : List (LeasePath names)} :
    owner' ∈ t.blockingOwners owner paths ↔
      owner' ≠ owner ∧ ∃ q ∈ paths, ∃ k p, t.Holds owner' k p ∧ Blocks p q := by
  rw [blockingOwners, List.mem_dedup, List.mem_filter, List.mem_flatMap, decide_eq_true_eq,
    and_comm]
  simp only [h.mem_blockersOf]

theorem Indexed.free (h : t.Indexed) {paths : List (LeasePath names)}
    (hfree : t.blockingOwners owner paths = []) :
    ∀ q ∈ paths, ∀ o ≠ owner, ∀ k p, t.Holds o k p → ¬ Blocks p q := by
  intro q hq o ho k p hp hblocks
  have hmem := h.mem_blockingOwners.2 ⟨ho, q, hq, k, p, hp, hblocks⟩
  rw [hfree] at hmem
  exact absurd hmem List.not_mem_nil

/-! ## Claims -/

theorem pathsOf_claimPath (owner' : Owner) :
    (claimPath owner t p).pathsOf owner' =
      if owner' = owner ∧ (t.pathsOf owner).get? p.key = none then (t.pathsOf owner).set p.key p
      else t.pathsOf owner' := by
  unfold claimPath
  cases hget : (t.pathsOf owner).get? p.key with
  | some e => simp
  | none =>
    rw [Option.isSome_none, if_neg Bool.false_ne_true, pathsOf, pathsOf_set]
    simp only [and_true]

theorem holds_claimPath {k : Text} :
    (claimPath owner t p).Holds owner' k q ↔ t.Holds owner' k q ∨
      (owner' = owner ∧ k = p.key ∧ q = p ∧ (t.pathsOf owner).get? p.key = none) := by
  rw [Holds, pathsOf_claimPath]
  by_cases h : owner' = owner ∧ (t.pathsOf owner).get? p.key = none
  · obtain ⟨rfl, hnone⟩ := h
    rw [if_pos ⟨rfl, hnone⟩, Dict.get?_set, Holds]
    split_ifs with hk
    · rw [hk, hnone]
      simp [eq_comm]
    · simp [hk]
  · rw [if_neg h]
    constructor
    · exact .inl
    · rintro (hold | ⟨howner, -, -, hnone⟩)
      · exact hold
      · exact absurd ⟨howner, hnone⟩ h

theorem Indexed.claimPath (h : t.Indexed) (hfree : ∀ o ≠ owner, ∀ q, ¬ t.Holds o p.key q) :
    (claimPath owner t p).Indexed := by
  cases hget : (t.pathsOf owner).get? p.key with
  | some e =>
    have hsame : LeaseTable.claimPath owner t p = t := by simp [LeaseTable.claimPath, hget]
    rwa [hsame]
  | none =>
    have hunheld (o : Owner) (q : LeasePath names) : ¬ t.Holds o p.key q := by
      by_cases ho : o = owner
      · rw [ho, Holds, hget]
        simp
      · exact hfree o ho q
    have hclaim : LeaseTable.claimPath owner t p =
        { t with
          leasePaths := t.leasePaths.set owner ((t.pathsOf owner).set p.key p)
          exactOwners := t.exactOwners.set p.key owner
          entriesByKey := t.entriesByKey.set p.key p
          directoryOwners := t.directoryOwners.addAll p.directoryKeys owner
          prefixOwners := t.prefixOwners.addAll p.prefixes owner } := by
      simp [LeaseTable.claimPath, hget, p.resolved_ne]
    have htotal (f : LeasePath names → Nat) (o : Owner) :
        ((LeaseTable.claimPath owner t p).pathsOf o).total f =
          (t.pathsOf o).total f + if o = owner then f p else 0 := by
      rw [pathsOf_claimPath]
      by_cases ho : o = owner
      · rw [if_pos ⟨ho, hget⟩, if_pos ho, Dict.total_set_new _ _ hget, ho]
      · rw [if_neg fun h => ho h.1, if_neg ho, Nat.add_zero]
    refine ⟨fun o k q hq => ?_, fun k o => ?_, fun k q => ?_, fun k o => ?_, fun k o => ?_, ?_, ?_⟩
    · rcases holds_claimPath.1 hq with hold | ⟨-, rfl, rfl, -⟩
      · exact h.keyed o k q hold
      · rfl
    · rw [hclaim]
      show (t.exactOwners.set p.key owner).get? k = some o ↔ _
      rw [← hclaim, Dict.get?_set]
      simp only [holds_claimPath]
      split_ifs with hk
      · rw [Option.some.injEq]
        constructor
        · rintro rfl
          exact ⟨p, .inr ⟨rfl, hk, rfl, hget⟩⟩
        · rintro ⟨q, hold | ⟨rfl, -⟩⟩
          · exact absurd (hk ▸ hold) (hunheld o q)
          · rfl
      · rw [h.exact]
        constructor
        · rintro ⟨q, hq⟩
          exact ⟨q, .inl hq⟩
        · rintro ⟨q, hold | ⟨-, hkey, -⟩⟩
          · exact ⟨q, hold⟩
          · exact absurd hkey hk
    · rw [hclaim]
      show (t.entriesByKey.set p.key p).get? k = some q ↔ _
      rw [← hclaim, Dict.get?_set]
      simp only [holds_claimPath]
      split_ifs with hk
      · rw [Option.some.injEq]
        constructor
        · rintro rfl
          exact ⟨owner, .inr ⟨rfl, hk, rfl, hget⟩⟩
        · rintro ⟨o, hold | ⟨-, -, rfl, -⟩⟩
          · exact absurd (hk ▸ hold) (hunheld o q)
          · rfl
      · rw [h.entries]
        constructor
        · rintro ⟨o, hq⟩
          exact ⟨o, .inl hq⟩
        · rintro ⟨o, hold | ⟨-, hkey, -⟩⟩
          · exact ⟨o, hold⟩
          · exact absurd hkey hk
    · rw [htotal, hclaim, Dict.countAt_addAll, h.directories]
    · rw [htotal, hclaim, Dict.countAt_addAll, h.prefixes]
    · rw [hclaim]
      exact h.directoriesTight.addAll _ _
    · rw [hclaim]
      exact h.prefixesTight.addAll _ _

/-- What a claim does, when nobody else has a path under one of the keys. -/
structure Claims (t : LeaseTable names Owner) (owner : Owner) (paths : List (LeasePath names))
    (t' : LeaseTable names Owner) : Prop where
  indexed : t'.Indexed
  others : ∀ o ≠ owner, ∀ k q, t'.Holds o k q ↔ t.Holds o k q
  kept : ∀ k q, t.Holds owner k q → t'.Holds owner k q
  held : ∀ p ∈ paths, ∃ e, t'.Holds owner p.key e
  origin : ∀ k e, t'.Holds owner k e → t.Holds owner k e ∨ e ∈ paths
  gaveUp : t'.gaveUp = t.gaveUp

theorem claimFold_spec (owner : Owner) (paths : List (LeasePath names)) (h : t.Indexed)
    (hfree : ∀ p ∈ paths, ∀ o ≠ owner, ∀ q, ¬ t.Holds o p.key q) :
    Claims t owner paths (paths.foldl (LeaseTable.claimPath owner) t) := by
  induction paths generalizing t with
  | nil =>
    exact ⟨h, fun _ _ _ _ => Iff.rfl, fun _ _ => id, fun _ hp => absurd hp List.not_mem_nil,
      fun _ _ => .inl, rfl⟩
  | cons p paths ih =>
    have hother (o : Owner) (ho : o ≠ owner) (k : Text) (q : LeasePath names) :
        (LeaseTable.claimPath owner t p).Holds o k q ↔ t.Holds o k q := by
      rw [holds_claimPath]
      simp [ho]
    have hstep := ih (h.claimPath (hfree p List.mem_cons_self)) fun p' hp' o ho q => by
      rw [hother o ho]
      exact hfree p' (List.mem_cons_of_mem p hp') o ho q
    refine ⟨hstep.indexed, fun o ho k q => ?_, fun k q hq => ?_, fun p' hp' => ?_,
      fun k e he => ?_, ?_⟩
    · rw [← hother o ho]
      exact hstep.others o ho k q
    · exact hstep.kept k q (holds_claimPath.2 (.inl hq))
    · rcases List.mem_cons.1 hp' with rfl | hp'
      · cases hget : (t.pathsOf owner).get? p'.key with
        | none => exact ⟨p', hstep.kept _ _ (holds_claimPath.2 (.inr ⟨rfl, rfl, rfl, hget⟩))⟩
        | some e => exact ⟨e, hstep.kept _ _ (holds_claimPath.2 (.inl hget))⟩
      · exact hstep.held p' hp'
    · rcases hstep.origin k e he with hold | hmem
      · rcases holds_claimPath.1 hold with hold | ⟨-, -, rfl, -⟩
        · exact .inl hold
        · exact .inr List.mem_cons_self
      · exact .inr (List.mem_cons_of_mem p hmem)
    · refine hstep.gaveUp.trans ?_
      unfold LeaseTable.claimPath
      split_ifs <;> rfl

theorem claim_spec {paths : List (LeasePath names)} (h : t.Indexed)
    (hfree : ∀ p ∈ paths, ∀ o ≠ owner, ∀ q, ¬ t.Holds o p.key q) :
    Claims t owner paths (t.claim owner paths) := by
  have hpaths (o : Owner) :
      ({ t with leasePaths := t.leasePaths.set owner (t.pathsOf owner) } :
        LeaseTable names Owner).pathsOf o = t.pathsOf o := by
    rw [pathsOf, pathsOf_set]
    split_ifs with ho
    · rw [ho]
    · rfl
  have hholds (o : Owner) (k : Text) (q : LeasePath names) :
      ({ t with leasePaths := t.leasePaths.set owner (t.pathsOf owner) } :
        LeaseTable names Owner).Holds o k q ↔ t.Holds o k q := by
    rw [Holds, hpaths]
    rfl
  have hclaims := claimFold_spec
    (t := { t with leasePaths := t.leasePaths.set owner (t.pathsOf owner) }) owner paths
    ⟨fun o k q hq => h.keyed o k q ((hholds o k q).1 hq),
      fun k o => by simp only [hholds, h.exact],
      fun k q => by simp only [hholds, h.entries],
      fun k o => by rw [hpaths, h.directories],
      fun k o => by rw [hpaths, h.prefixes], h.directoriesTight, h.prefixesTight⟩
    fun p hp o ho q => by
      rw [hholds]
      exact hfree p hp o ho q
  refine ⟨hclaims.indexed, fun o ho k q => ?_, fun k q hq => ?_, hclaims.held, fun k e he => ?_,
    hclaims.gaveUp⟩
  · rw [← hholds]
    exact hclaims.others o ho k q
  · exact hclaims.kept k q ((hholds owner k q).2 hq)
  · rw [← hholds]
    exact hclaims.origin k e he

/-! ## Removals -/

/-- What the removal of some keys of one owner does. -/
structure Removes (t : LeaseTable names Owner) (owner : Owner) (keys : List Text)
    (t' : LeaseTable names Owner) (removed : Bool) : Prop where
  indexed : t'.Indexed
  holds : ∀ o k q, t'.Holds o k q ↔ t.Holds o k q ∧ ¬ (o = owner ∧ k ∈ keys)
  gaveUp : ∃ n, t'.gaveUp = t.gaveUp ++ List.replicate n owner ∧ (removed = false → n = 0)
  kept : removed = false → ∀ o k q, t'.Holds o k q ↔ t.Holds o k q

theorem Indexed.removePath (h : t.Indexed) (owner : Owner) (key : Text) (removed : Bool) :
    ∃ t' removed', LeaseTable.removePath owner (t, removed) key = some (t', removed') ∧
      t'.Indexed ∧ (∀ o k q, t'.Holds o k q ↔ t.Holds o k q ∧ ¬ (o = owner ∧ k = key)) ∧
      ((t' = t ∧ removed' = removed) ∨
        (t'.gaveUp = t.gaveUp ++ [owner] ∧ removed' = true)) := by
  cases hget : (t.pathsOf owner).get? key with
  | none =>
    refine ⟨t, removed, by simp [LeaseTable.removePath, hget], h, fun o k q => ?_, .inl ⟨rfl, rfl⟩⟩
    constructor
    · intro hq
      refine ⟨hq, ?_⟩
      rintro ⟨rfl, rfl⟩
      rw [Holds, hget] at hq
      exact absurd hq (by simp)
    · exact And.left
  | some p =>
    have hkey : p.key = key := h.keyed owner key p hget
    have hmine : t.exactOwners.get? p.key = some owner := by
      rw [hkey, h.exact]
      exact ⟨p, hget⟩
    have htotal (f : LeasePath names → Nat) :
        ((t.pathsOf owner).erase key).total f + f p = (t.pathsOf owner).total f :=
      Dict.total_erase_of_get? _ _ hget
    obtain ⟨directories, hdirectories, htight, hcount⟩ := h.directoriesTight.removeAll
      p.directoryKeys owner fun k => by
        rw [h.directories, ← htotal]
        exact Nat.le_add_left _ _
    obtain ⟨prefixes, hprefixes, hptight, hpcount⟩ := h.prefixesTight.removeAll
      p.prefixes owner fun k => by
        rw [h.prefixes, ← htotal]
        exact Nat.le_add_left _ _
    let t' : LeaseTable names Owner :=
      { leasePaths := t.leasePaths.set owner ((t.pathsOf owner).erase key)
        exactOwners := t.exactOwners.erase p.key
        entriesByKey := t.entriesByKey.erase p.key
        directoryOwners := directories
        prefixOwners := prefixes
        gaveUp := t.gaveUp ++ [owner] }
    have hpaths (o : Owner) : t'.pathsOf o =
        if o = owner then (t.pathsOf owner).erase key else t.pathsOf o := by
      show ((t.leasePaths.set owner _).get? o).getD ∅ = _
      rw [pathsOf_set]
    have hholds (o : Owner) (k : Text) (q : LeasePath names) :
        t'.Holds o k q ↔ t.Holds o k q ∧ ¬ (o = owner ∧ k = key) := by
      rw [Holds, hpaths]
      by_cases ho : o = owner
      · rw [if_pos ho, Dict.get?_erase, ho]
        by_cases hk : k = key
        · simp [hk]
        · simp [hk, Holds]
      · simp [ho, Holds]
    have htotal' (f : LeasePath names → Nat) (o : Owner) :
        (t'.pathsOf o).total f = (t.pathsOf o).total f - if o = owner then f p else 0 := by
      rw [hpaths]
      split_ifs with ho
      · rw [ho, ← htotal f, Nat.add_sub_cancel]
      · rfl
    refine ⟨t', true, ?_, ⟨fun o k q hq => ?_, fun k o => ?_, fun k q => ?_, fun k o => ?_,
      fun k o => ?_, htight, hptight⟩, hholds, .inr ⟨rfl, rfl⟩⟩
    · simp [LeaseTable.removePath, hget, p.resolved_ne, hdirectories, hprefixes, hmine, t']
    · exact h.keyed o k q ((hholds o k q).1 hq).1
    · show (t.exactOwners.erase p.key).get? k = some o ↔ _
      simp only [hholds]
      rw [Dict.get?_erase, hkey]
      split_ifs with hk
      · constructor
        · simp
        · rintro ⟨q, hq, hne⟩
          refine absurd ⟨?_, hk⟩ hne
          exact h.owner_unique (hk ▸ hq) hget
      · rw [h.exact]
        simp [hk]
    · show (t.entriesByKey.erase p.key).get? k = some q ↔ _
      simp only [hholds]
      rw [Dict.get?_erase, hkey]
      split_ifs with hk
      · constructor
        · simp
        · rintro ⟨o, hq, hne⟩
          refine absurd ⟨?_, hk⟩ hne
          exact h.owner_unique (hk ▸ hq) hget
      · rw [h.entries]
        simp [hk]
    · rw [htotal', ← h.directories]
      exact hcount k o
    · rw [htotal', ← h.prefixes]
      exact hpcount k o

theorem removeFold_spec (owner : Owner) (keys : List Text) (removed : Bool) (h : t.Indexed) :
    ∃ t' removed', keys.foldlM (LeaseTable.removePath owner) (t, removed) = some (t', removed') ∧
      t'.Indexed ∧ (∀ o k q, t'.Holds o k q ↔ t.Holds o k q ∧ ¬ (o = owner ∧ k ∈ keys)) ∧
      ((t' = t ∧ removed' = removed) ∨
        (∃ n, t'.gaveUp = t.gaveUp ++ List.replicate n owner ∧ removed' = true)) := by
  induction keys generalizing t removed with
  | nil => exact ⟨t, removed, rfl, h, by simp, .inl ⟨rfl, rfl⟩⟩
  | cons key keys ih =>
    obtain ⟨t₁, removed₁, hstep, hindexed, hholds, hlog⟩ := h.removePath owner key removed
    obtain ⟨t₂, removed₂, hrest, hindexed₂, hholds₂, hlog₂⟩ := ih removed₁ hindexed
    refine ⟨t₂, removed₂, ?_, hindexed₂, fun o k q => ?_, ?_⟩
    · rw [List.foldlM_cons, hstep]
      exact hrest
    · rw [hholds₂, hholds, List.mem_cons]
      tauto
    · rcases hlog with ⟨rfl, rfl⟩ | ⟨hgave, hremoved⟩
      · exact hlog₂
      · rcases hlog₂ with ⟨rfl, rfl⟩ | ⟨n, hn, hremoved₂⟩
        · exact .inr ⟨1, hgave, hremoved⟩
        · refine .inr ⟨n + 1, ?_, hremoved₂⟩
          rw [hn, hgave, List.append_assoc, List.replicate_succ]
          rfl

theorem Indexed.removePaths (h : t.Indexed) (owner : Owner) (keys : List Text) :
    ∃ t' removed, t.removePaths owner keys = some (t', removed) ∧
      Removes t owner keys t' removed := by
  obtain ⟨t', removed, hrun, hindexed, hholds, hlog⟩ :=
    removeFold_spec owner keys false h
  refine ⟨t', removed, hrun, hindexed, hholds, ?_, ?_⟩
  · rcases hlog with ⟨rfl, rfl⟩ | ⟨n, hn, rfl⟩
    · exact ⟨0, by simp, fun _ => rfl⟩
    · exact ⟨n, hn, by simp⟩
  · rintro rfl
    rcases hlog with ⟨rfl, -⟩ | ⟨_, _, hfalse⟩
    · exact fun _ _ _ => Iff.rfl
    · exact absurd hfalse (by simp)

/-- The paths part of `_remove_owner`, with the flag of the paths and of the entry of the owner. -/
def removeOwner (t : LeaseTable names Owner) (owner : Owner) :
    Option (LeaseTable names Owner × Bool) := do
  let s ← t.removePaths owner (t.pathsOf owner).keys
  some ({ s.1 with leasePaths := s.1.leasePaths.erase owner },
    (s.1.leasePaths.get? owner).isSome || s.2)

theorem Indexed.eraseOwner (h : t.Indexed) (owner : Owner) (hnone : ∀ k q, ¬ t.Holds owner k q) :
    ({ t with leasePaths := t.leasePaths.erase owner } : LeaseTable names Owner).Indexed ∧
      ∀ o k q, ({ t with leasePaths := t.leasePaths.erase owner } :
        LeaseTable names Owner).Holds o k q ↔ t.Holds o k q := by
  have hempty : (t.pathsOf owner) = ∅ := by
    have hentries : (t.pathsOf owner).entries = [] := by
      rw [List.eq_nil_iff_forall_not_mem]
      intro e he
      exact hnone e.1 e.2 (Dict.mem_entries.1 he)
    generalize t.pathsOf owner = d at hentries
    obtain ⟨es, hes⟩ := d
    have : es = [] := hentries
    subst this
    rfl
  have hpaths (o : Owner) : ({ t with leasePaths := t.leasePaths.erase owner } :
      LeaseTable names Owner).pathsOf o = t.pathsOf o := by
    show ((t.leasePaths.erase owner).get? o).getD ∅ = _
    rw [Dict.get?_erase]
    split_ifs with ho
    · rw [ho, hempty, Option.getD_none]
    · rfl
  have hholds (o : Owner) (k : Text) (q : LeasePath names) :
      ({ t with leasePaths := t.leasePaths.erase owner } : LeaseTable names Owner).Holds o k q ↔
        t.Holds o k q := by
    rw [Holds, hpaths]
    rfl
  refine ⟨⟨fun o k q hq => h.keyed o k q ((hholds o k q).1 hq), fun k o => ?_, fun k q => ?_,
    fun k o => ?_, fun k o => ?_, h.directoriesTight, h.prefixesTight⟩, hholds⟩
  · simp only [hholds, h.exact]
  · simp only [hholds, h.entries]
  · rw [hpaths, h.directories]
  · rw [hpaths, h.prefixes]

/-- All paths of the owner are removed. -/
theorem Indexed.removeOwner (h : t.Indexed) (owner : Owner) :
    ∃ t' removed, t.removeOwner owner = some (t', removed) ∧ t'.Indexed ∧
      (∀ o k q, t'.Holds o k q ↔ t.Holds o k q ∧ o ≠ owner) ∧
      (∃ n, t'.gaveUp = t.gaveUp ++ List.replicate n owner ∧ (removed = false → n = 0)) ∧
      (removed = false → ∀ o k q, t'.Holds o k q ↔ t.Holds o k q) := by
  obtain ⟨t₁, removed, hrun, hremoves⟩ := h.removePaths owner (t.pathsOf owner).keys
  have hholds (o : Owner) (k : Text) (q : LeasePath names) :
      t₁.Holds o k q ↔ t.Holds o k q ∧ o ≠ owner := by
    rw [hremoves.holds]
    constructor
    · rintro ⟨hq, hkept⟩
      refine ⟨hq, fun ho => hkept ⟨ho, ?_⟩⟩
      rw [Dict.mem_keys, ← ho, hq]
      exact Option.some_ne_none _
    · rintro ⟨hq, ho⟩
      exact ⟨hq, fun h => ho h.1⟩
  obtain ⟨hindexed, hsame⟩ := hremoves.indexed.eraseOwner owner fun k q hq =>
    ((hholds owner k q).1 hq).2 rfl
  obtain ⟨n, hn, hzero⟩ := hremoves.gaveUp
  refine ⟨_, _, by rw [LeaseTable.removeOwner, hrun]; rfl, hindexed, fun o k q => ?_,
    ⟨n, hn, fun hflag => ?_⟩, fun hflag o k q => ?_⟩
  · rw [hsame, hholds]
  · exact hzero (Bool.or_eq_false_iff.1 hflag).2
  · rw [hsame]
    exact hremoves.kept (Bool.or_eq_false_iff.1 hflag).2 o k q

end LeaseTable

end Sunpack.PathLease
