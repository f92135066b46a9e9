import Sunpack.Cleanup.Counts

/-!
# No shared source file is deleted too early

The counts of the table are the numbers of owners, and a path is authorised for deletion only if
everybody who released it since nobody held it was eligible. Both hold in every state that calls can
reach, whatever paths the tasks have at each call.
-/

namespace Sunpack.Cleanup

open Lib

variable (absolutePathKey : Text → Text)

/-! ## Runs -/

/-- A path of an owner was released. -/
structure Release where
  owner : Nat
  eligible : Bool
deriving DecidableEq, Repr

/-- The number of owners whose registered paths contain the key. -/
def CleanupRefTable.holders (t : CleanupRefTable) (key : Text) : Nat :=
  t.owned.count fun _ entry => key ∈ entry.keys absolutePathKey

def CleanupRefTable.holds (t : CleanupRefTable) (owner : Nat) (key : Text) : Bool :=
  t.owned.holds (fun _ entry => key ∈ entry.keys absolutePathKey) owner

structure World where
  table : CleanupRefTable := {}
  /-- Who has released a key since its count was last zero. -/
  releases : Text → List Release := fun _ => []
  /-- The owners that were marked eligible since they registered. -/
  marked : Nat → Bool := fun _ => false

namespace World

/-- Calls that release nobody. -/
def settle (w : World) (table : CleanupRefTable) : World :=
  { w with
    table := table
    releases := fun key => if table.holders absolutePathKey key = 0 then [] else w.releases key }

def mark (w : World) (task : Task) : World :=
  { w with
    table := w.table.markCleanupEligible task
    marked := fun owner =>
      w.marked owner || (owner = task.id && (w.table.owned.get? owner).isSome) }

def pop (w : World) (owner : Nat) : World :=
  let table := (w.table.pop absolutePathKey owner).1
  { table := table
    releases := fun key =>
      if table.holders absolutePathKey key = 0 then []
      else if w.table.holds absolutePathKey owner key then
        { owner := owner, eligible := w.marked owner } :: w.releases key
      else w.releases key
    marked := Function.update w.marked owner false }

/-- The owners that are popped one after the other, each with the world before. -/
def popping (w : World) : List Nat → List (World × Nat)
  | [] => []
  | owner :: owners => (w, owner) :: popping (w.pop absolutePathKey owner) owners

def popAll (w : World) (owners : List Nat) : World := owners.foldl (pop absolutePathKey) w

end World

inductive Action
  | register (task : Task)
  | refresh (task : Task)
  | markCleanupEligible (task : Task)
  | release (task : Task)
  | sweep
deriving DecidableEq, Repr

/-- A call that raises is not a step. -/
def World.step (w : World) : Action → Option World
  | .register task => (w.table.register absolutePathKey task).toOption.map (w.settle absolutePathKey)
  | .refresh task => (w.table.refresh absolutePathKey task).toOption.map (w.settle absolutePathKey)
  | .markCleanupEligible task => some (w.mark task)
  | .release task => some (w.pop absolutePathKey task.id)
  | .sweep => some (w.popAll absolutePathKey w.table.owned.keys)

def machine : Machine World Action where
  init := {}
  step := World.step absolutePathKey

/-! ## The invariant -/

structure Inv (w : World) : Prop where
  counted : Counted w.table.counts (w.table.holders absolutePathKey)
  distinct : ∀ owner entry, w.table.owned.get? owner = some entry →
    (entry.keys absolutePathKey).Nodup
  /-- Exactly the vetoes are kept. -/
  preserved : ∀ key, key ∈ w.table.preserved ↔ ∃ r ∈ w.releases key, r.eligible = false
  idle : ∀ key, w.table.holders absolutePathKey key = 0 → w.releases key = []
  marked : ∀ owner, w.marked owner = (w.table.owned.get? owner).any (·.eligible)

theorem inv_init : Inv absolutePathKey {} where
  counted key := rfl
  distinct owner entry h := by simp at h
  preserved key := by simp
  idle key _ := rfl
  marked owner := rfl

variable {absolutePathKey} {w w' : World}

theorem holders_pos {t : CleanupRefTable} {owner : Nat} {entry : Entry}
    (h : t.owned.get? owner = some entry) {key : Text} (hkey : key ∈ entry.keys absolutePathKey) :
    0 < t.holders absolutePathKey key := by
  by_contra hzero
  have hnone := Dict.count_eq_zero.1 (Nat.eq_zero_of_not_pos hzero) owner entry h
  simp [hkey] at hnone

/-- Setting an owner's entry moves it from its old keys to its new ones. -/
theorem holders_set (absolutePathKey : Text → Text) {t t' : CleanupRefTable} {owner : Nat} {entry : Entry}
    (h : t'.owned = t.owned.set owner entry) (key : Text) :
    t'.holders absolutePathKey key + (t.holds absolutePathKey owner key).toNat =
      t.holders absolutePathKey key + (decide (key ∈ entry.keys absolutePathKey)).toNat := by
  rw [CleanupRefTable.holders, h]
  exact Dict.count_set t.owned _ owner entry

theorem holders_erase (absolutePathKey : Text → Text) {t t' : CleanupRefTable} {owner : Nat} (h : t'.owned = t.owned.erase owner)
    (key : Text) : t'.holders absolutePathKey key + (t.holds absolutePathKey owner key).toNat =
      t.holders absolutePathKey key := by
  rw [CleanupRefTable.holders, h]
  exact Dict.count_erase t.owned _ owner

theorem holds_eq {t : CleanupRefTable} {owner : Nat} {entry : Entry}
    (h : t.owned.get? owner = some entry) (key : Text) :
    t.holds absolutePathKey owner key = decide (key ∈ entry.keys absolutePathKey) := by
  rw [CleanupRefTable.holds, Dict.holds, h, Option.any_some]

theorem Inv.preserved_held (hw : Inv absolutePathKey w) {key : Text}
    (hkey : key ∈ w.table.preserved) : 0 < w.table.holders absolutePathKey key := by
  obtain ⟨r, hr, _⟩ := (hw.preserved key).1 hkey
  refine Nat.pos_of_ne_zero fun hzero => ?_
  rw [hw.idle key hzero] at hr
  exact absurd hr List.not_mem_nil

/-- Calls that release nobody keep the vetoes of the keys that are still held. -/
theorem Inv.settle (hw : Inv absolutePathKey w) {t : CleanupRefTable}
    (hcounted : Counted t.counts (t.holders absolutePathKey))
    (hdistinct : ∀ owner entry, t.owned.get? owner = some entry →
      (entry.keys absolutePathKey).Nodup)
    (hpreserved : ∀ key, key ∈ t.preserved ↔
      key ∈ w.table.preserved ∧ t.holders absolutePathKey key ≠ 0)
    (hmarked : ∀ owner, (t.owned.get? owner).any (·.eligible) =
      (w.table.owned.get? owner).any (·.eligible)) :
    Inv absolutePathKey (w.settle absolutePathKey t) where
  counted := hcounted
  distinct := hdistinct
  preserved key := by
    simp only [World.settle]
    rw [hpreserved, hw.preserved]
    split_ifs with hzero
    · simp [hzero]
    · simp [hzero]
  idle key hzero := if_pos hzero
  marked owner := (hw.marked owner).trans (hmarked owner).symm

theorem mem_ownedKeys {t : CleanupRefTable} {owner : Nat} {key : Text} :
    key ∈ t.ownedKeys absolutePathKey owner ↔ t.holds absolutePathKey owner key = true := by
  rw [CleanupRefTable.ownedKeys, CleanupRefTable.holds, Dict.holds, List.mem_dedup]
  cases t.owned.get? owner <;> simp

theorem holders_pos_of_holds {t : CleanupRefTable} {owner : Nat} {key : Text}
    (h : t.holds absolutePathKey owner key = true) : 0 < t.holders absolutePathKey key := by
  rw [CleanupRefTable.holds, Dict.holds, Option.any_eq_true] at h
  obtain ⟨entry, hget, hkey⟩ := h
  exact holders_pos hget (of_decide_eq_true hkey)

theorem reconcile_inv (hw : Inv absolutePathKey w) {owner : Nat} {entry : Entry}
    (hdistinct : (entry.keys absolutePathKey).Nodup)
    (heligible : entry.eligible = (w.table.owned.get? owner).any (·.eligible)) :
    ∃ t, w.table.reconcile absolutePathKey owner entry = .ok t ∧
      Inv absolutePathKey (w.settle absolutePathKey t) := by
  rw [CleanupRefTable.reconcile]
  set old := w.table.ownedKeys absolutePathKey owner with hold
  set new := (entry.keys absolutePathKey).dedup with hnew
  have hpos (key : Text) (hkey : key ∈ old) : 0 < w.table.holders absolutePathKey key :=
    holders_pos_of_holds (mem_ownedKeys.1 hkey)
  have hnodup : old.Nodup := List.nodup_dedup _
  obtain ⟨t₁, hdrop, hcounted₁, howned₁, hpreserved₁⟩ := dropKeys_counted
    (hnodup.filter (· ∉ new)) hw.counted fun key hkey => hpos key (List.mem_of_mem_filter hkey)
  obtain ⟨hcounted₂, howned₂, hpreserved₂⟩ := addKeys_counted
    ((List.nodup_dedup (entry.keys absolutePathKey)).filter (· ∉ old)) hcounted₁
  set t₂ := (new.filter (· ∉ old)).foldl CleanupRefTable.addKey t₁
  have howned : t₂.owned.set owner entry = w.table.owned.set owner entry := by
    rw [howned₂, howned₁]
  obtain ⟨t₃, hresult⟩ : ∃ t, t = { t₂ with owned := t₂.owned.set owner entry } := ⟨_, rfl⟩
  have howned₃ : t₃.owned = w.table.owned.set owner entry := by rw [hresult, howned]
  have hcounts₃ : t₃.counts = t₂.counts := by rw [hresult]
  have hpreserved₃ : t₃.preserved = t₂.preserved := by rw [hresult]
  have hholders (key : Text) : t₃.holders absolutePathKey key + (decide (key ∈ old)).toNat =
      w.table.holders absolutePathKey key + (decide (key ∈ new)).toNat := by
    have hset := holders_set absolutePathKey howned₃ key
    have hmem : w.table.holds absolutePathKey owner key = decide (key ∈ old) := by
      rw [Bool.eq_iff_iff, decide_eq_true_eq, hold, mem_ownedKeys]
    have hmem' : decide (key ∈ entry.keys absolutePathKey) = decide (key ∈ new) := by
      rw [Bool.eq_iff_iff, decide_eq_true_eq, decide_eq_true_eq, hnew, List.mem_dedup]
    rw [hmem, hmem'] at hset
    exact hset
  refine ⟨t₃, ?_, hw.settle ?_ ?_ ?_ ?_⟩
  · simp only [hdrop, hresult]
    rfl
  · intro key
    have hsum := hholders key
    have hheld := hpos key
    have heq : more (less (w.table.holders absolutePathKey) (old.filter (· ∉ new)))
        (new.filter (· ∉ old)) key = t₃.holders absolutePathKey key := by
      by_cases ho : key ∈ old <;> by_cases hn : key ∈ new <;>
        simp only [more, less, List.mem_filter, ho, hn, decide_true, decide_false, not_true,
          not_false_iff, Bool.toNat_true, Bool.toNat_false, and_self, and_true, and_false, if_true,
          if_false, Bool.false_eq_true] at hsum hheld ⊢ <;> omega
    rw [hcounts₃, hcounted₂ key, heq]
  · intro o e he
    rw [howned₃, Dict.get?_set] at he
    split_ifs at he with ho
    · exact Option.some.inj he ▸ hdistinct
    · exact hw.distinct o e he
  · intro key
    have hsum := hholders key
    have hheld := hpos key
    rw [hpreserved₃, hpreserved₂, hpreserved₁]
    refine and_congr_right fun hkey => ?_
    have hkept := hw.preserved_held hkey
    by_cases ho : key ∈ old <;> by_cases hn : key ∈ new <;>
      simp only [List.mem_filter, ho, hn, decide_true, decide_false, not_true,
        not_false_iff, Bool.toNat_true, Bool.toNat_false, and_self, and_true, and_false,
        Bool.false_eq_true, true_imp_iff, false_imp_iff, true_iff] at hsum hheld ⊢ <;> omega
  · intro o
    rw [howned₃, Dict.get?_set]
    split_ifs with ho
    · rw [ho, ← heligible, Option.any_some]
    · rfl

theorem register_inv (hw : Inv absolutePathKey w) (task : Task) :
    ∃ t, w.table.register absolutePathKey task = .ok t ∧
      Inv absolutePathKey (w.settle absolutePathKey t) := by
  unfold CleanupRefTable.register
  simp only
  split_ifs
  · refine ⟨w.table, rfl, hw.settle hw.counted hw.distinct (fun key => ?_) fun _ => rfl⟩
    exact ⟨fun hkey => ⟨hkey, (hw.preserved_held hkey).ne'⟩, And.left⟩
  · have hnodup := cleanupPathsFor_nodup absolutePathKey task
    exact reconcile_inv hw hnodup rfl

theorem refresh_inv (hw : Inv absolutePathKey w) (task : Task) :
    ∃ t, w.table.refresh absolutePathKey task = .ok t ∧
      Inv absolutePathKey (w.settle absolutePathKey t) := by
  unfold CleanupRefTable.refresh
  split
  · exact register_inv hw task
  · refine ⟨w.table, rfl, hw.settle hw.counted hw.distinct (fun key => ?_) fun _ => rfl⟩
    exact ⟨fun hkey => ⟨hkey, (hw.preserved_held hkey).ne'⟩, And.left⟩

theorem mark_inv (hw : Inv absolutePathKey w) (task : Task) :
    Inv absolutePathKey (w.mark task) := by
  have hmarked (owner : Nat) : (w.mark task).marked owner =
      ((w.table.owned.get? owner).any (·.eligible) ||
        (owner = task.id && (w.table.owned.get? task.id).isSome)) := by
    rw [← hw.marked owner]
    simp only [World.mark]
    by_cases ho : owner = task.id <;> simp [ho]
  have hsame (h : ∀ owner, (w.mark task).marked owner =
      (w.table.owned.get? owner).any (·.eligible)) (htable : (w.mark task).table = w.table) :
      Inv absolutePathKey (w.mark task) := by
    refine ⟨?_, ?_, ?_, ?_, ?_⟩ <;> rw [htable]
    · exact hw.counted
    · exact hw.distinct
    · exact hw.preserved
    · exact hw.idle
    · exact h
  cases hget : w.table.owned.get? task.id with
  | none =>
    refine hsame (fun owner => ?_) ?_
    · rw [hmarked owner, hget]
      simp
    · simp only [World.mark, CleanupRefTable.markCleanupEligible, hget]
  | some entry =>
    by_cases heligible : entry.eligible = true
    · refine hsame (fun owner => ?_) ?_
      · rw [hmarked owner, hget]
        by_cases ho : owner = task.id
        · simp [ho, hget, heligible]
        · simp [ho]
      · simp only [World.mark, CleanupRefTable.markCleanupEligible, hget, if_pos heligible]
    have htable : (w.mark task).table = { w.table with
        owned := w.table.owned.set task.id { entry with eligible := true } } := by
      simp only [World.mark, CleanupRefTable.markCleanupEligible, hget, if_neg heligible]
    have howned : (w.mark task).table.owned =
        w.table.owned.set task.id { entry with eligible := true } := by rw [htable]
    have hset (key : Text) : (w.mark task).table.holders absolutePathKey key =
        w.table.holders absolutePathKey key := by
      have hmove := holders_set absolutePathKey howned key
      have hkeys : Entry.keys absolutePathKey { entry with eligible := true } =
          entry.keys absolutePathKey := rfl
      rw [holds_eq hget, hkeys] at hmove
      exact Nat.add_right_cancel hmove
    refine ⟨fun key => ?_, fun owner e he => ?_, fun key => ?_, fun key hzero => ?_,
      fun owner => ?_⟩
    · rw [hset key, htable]
      exact hw.counted key
    · rw [howned, Dict.get?_set] at he
      split_ifs at he with ho
      · obtain rfl := Option.some.inj he
        exact hw.distinct task.id entry hget
      · exact hw.distinct owner e he
    · rw [htable]
      exact hw.preserved key
    · rw [hset key] at hzero
      exact hw.idle key hzero
    · rw [hmarked owner, hget, howned, Dict.get?_set]
      by_cases ho : owner = task.id
      · simp [ho]
      · simp [ho]

/-! ## Releasing -/

/-- What `_pop` does to an owner of the table. -/
theorem pop_popped (hw : Inv absolutePathKey w) {owner : Nat} {entry : Entry}
    (hget : w.table.owned.get? owner = some entry) :
    ∃ p, w.table.pop absolutePathKey owner = (p.table,
        { taskKey := entry.taskKey, paths := p.zeroed, cleanupPaths := p.cleanupPaths }) ∧
      Popped absolutePathKey entry.eligible (w.table.holders absolutePathKey) entry.paths
        { table := { w.table with owned := w.table.owned.erase owner } } p := by
  refine ⟨_, ?_, popPaths_popped entry.eligible (hw.distinct owner entry hget) hw.counted ?_⟩
  · rw [CleanupRefTable.pop, hget]
  · exact fun path hpath => holders_pos hget (List.mem_map_of_mem hpath)

theorem pop_none {owner : Nat} (hw : Inv absolutePathKey w)
    (hget : w.table.owned.get? owner = none) : w.pop absolutePathKey owner = w := by
  have htable : (w.table.pop absolutePathKey owner).1 = w.table := by
    rw [CleanupRefTable.pop, hget]
  have hmarked : Function.update w.marked owner false = w.marked := by
    refine Function.update_eq_self_iff.2 ?_
    rw [hw.marked, hget]
    rfl
  have hreleases : (fun key => if w.table.holders absolutePathKey key = 0 then []
      else if w.table.holds absolutePathKey owner key then
        { owner := owner, eligible := w.marked owner } :: w.releases key
      else w.releases key) = w.releases := by
    funext key
    have hholds : w.table.holds absolutePathKey owner key = false := by
      rw [CleanupRefTable.holds, Dict.holds, hget]
      rfl
    rw [hholds, if_neg Bool.false_ne_true]
    split_ifs with hzero
    · exact (hw.idle key hzero).symm
    · rfl
  rw [World.pop, htable, hmarked, hreleases]

theorem pop_inv (hw : Inv absolutePathKey w) (owner : Nat) :
    Inv absolutePathKey (w.pop absolutePathKey owner) := by
  cases hget : w.table.owned.get? owner with
  | none =>
    rw [pop_none hw hget]
    exact hw
  | some entry =>
    obtain ⟨p, hpop, hpopped⟩ := pop_popped hw hget
    have howned : p.table.owned = w.table.owned.erase owner := hpopped.owned
    have hkeys (key : Text) : key ∈ entry.paths.map absolutePathKey ↔
        w.table.holds absolutePathKey owner key = true := by
      rw [holds_eq hget, decide_eq_true_eq, Entry.keys]
    have hmarked : w.marked owner = entry.eligible := by
      rw [hw.marked, hget, Option.any_some]
    have hholders (key : Text) : p.table.holders absolutePathKey key =
        less (w.table.holders absolutePathKey) (entry.paths.map absolutePathKey) key := by
      have hsum := holders_erase absolutePathKey howned key
      rw [less]
      split_ifs with hkey
      · rw [(hkeys key).1 hkey] at hsum
        simp only [Bool.toNat_true] at hsum
        omega
      · rw [Bool.eq_false_iff.2 fun htrue => hkey ((hkeys key).2 htrue)] at hsum
        simpa using hsum
    have htable : (w.pop absolutePathKey owner).table = p.table := by rw [World.pop, hpop]
    have hreleases (key : Text) : (w.pop absolutePathKey owner).releases key =
        if p.table.holders absolutePathKey key = 0 then []
        else if key ∈ entry.paths.map absolutePathKey then
          { owner := owner, eligible := entry.eligible } :: w.releases key
        else w.releases key := by
      simp only [World.pop, hpop, hkeys, hmarked]
    refine ⟨fun key => ?_, fun o e he => ?_, fun key => ?_, fun key hzero => ?_, fun o => ?_⟩
    · rw [htable, hpopped.counted key, hholders key]
    · rw [htable, howned, Dict.get?_erase] at he
      split_ifs at he
      exact hw.distinct o e he
    · have hheld : key ∈ w.table.preserved → 0 < w.table.holders absolutePathKey key :=
        hw.preserved_held
      rw [htable, hpopped.preserved, hreleases, hholders, less]
      have hpreserved := hw.preserved key
      show (key ∈ w.table.preserved ∨ _) ∧ _ ↔ _
      by_cases hkey : key ∈ entry.paths.map absolutePathKey
      · have hpos : 0 < w.table.holders absolutePathKey key :=
          holders_pos_of_holds ((hkeys key).1 hkey)
        simp only [hkey, true_and, true_imp_iff, if_true]
        split_ifs with hzero
        · simp only [List.not_mem_nil, false_and, exists_false, iff_false, not_and, not_not]
          intro _
          omega
        · rw [hpreserved]
          simp only [List.mem_cons, exists_eq_or_imp]
          constructor
          · rintro ⟨hor, _⟩
            exact hor.symm
          · intro hor
            exact ⟨hor.symm, by omega⟩
      · simp only [hkey, false_and, or_false, false_imp_iff, and_true, if_false]
        split_ifs with hzero
        · simp only [List.not_mem_nil, false_and, exists_false, iff_false]
          intro hmem
          have := hheld hmem
          omega
        · exact hpreserved
    · rw [htable] at hzero
      rw [hreleases, if_pos hzero]
    · rw [htable, howned, Dict.get?_erase]
      simp only [World.pop, Function.update_apply]
      split_ifs
      · rfl
      · exact hw.marked o

theorem popAll_inv (hw : Inv absolutePathKey w) (owners : List Nat) :
    Inv absolutePathKey (w.popAll absolutePathKey owners) := by
  induction owners generalizing w with
  | nil => exact hw
  | cons owner owners ih => exact ih (pop_inv hw owner)

theorem popping_inv (hw : Inv absolutePathKey w) (owners : List Nat) :
    ∀ p ∈ w.popping absolutePathKey owners, Inv absolutePathKey p.1 := by
  induction owners generalizing w with
  | nil => exact fun p hp => absurd hp List.not_mem_nil
  | cons owner owners ih =>
    intro p hp
    rcases List.mem_cons.1 hp with rfl | hp
    · exact hw
    · exact ih (pop_inv hw owner) p hp

/-- An owner is the only holder of a key. -/
theorem holders_eq_one {t : CleanupRefTable} {owner : Nat} {key : Text}
    (h : t.holds absolutePathKey owner key = true) : t.holders absolutePathKey key = 1 ↔
      ∀ other, t.holds absolutePathKey other key = true → other = owner := by
  obtain ⟨t', howned⟩ : ∃ t' : CleanupRefTable, t'.owned = t.owned.erase owner :=
    ⟨{ t with owned := t.owned.erase owner }, rfl⟩
  have hsum := holders_erase absolutePathKey howned key
  rw [h, Bool.toNat_true] at hsum
  rw [← hsum, Nat.add_eq_right, CleanupRefTable.holders, howned, Dict.count_eq_zero]
  constructor
  · intro hnone other hother
    by_contra hne
    rw [CleanupRefTable.holds, Dict.holds, Option.any_eq_true] at hother
    obtain ⟨entry, hget, hkey⟩ := hother
    have hfalse := hnone other entry ((Dict.get?_erase_of_ne _ hne).trans hget)
    rw [hfalse] at hkey
    exact absurd hkey Bool.false_ne_true
  · intro hall other entry hget
    rw [Dict.get?_erase] at hget
    split_ifs at hget with hne
    refine Bool.eq_false_iff.2 fun hkey => hne (hall other ?_)
    rw [holds_eq hget]
    exact hkey

/-! ## Safety -/

variable (absolutePathKey)

/-- A release reports what its owner held last, and authorises a path only if everybody who
released it since its count was last zero was marked eligible. -/
structure ReleaseOk (w : World) (owner : Nat) : Prop where
  reported : ∀ path, path ∈ (w.table.pop absolutePathKey owner).2.paths ↔
    (∃ entry, w.table.owned.get? owner = some entry ∧ path ∈ entry.paths) ∧
      ∀ other, w.table.holds absolutePathKey other (absolutePathKey path) = true → other = owner
  authorised : ∀ path, path ∈ (w.table.pop absolutePathKey owner).2.cleanupPaths ↔
    path ∈ (w.table.pop absolutePathKey owner).2.paths ∧ w.marked owner = true ∧
      ∀ r ∈ w.releases (absolutePathKey path), r.eligible = true

/-- What holds in every reachable state of the table. -/
structure Safe (w : World) : Prop where
  /-- A key is counted with the number of owners that have it, and not stored without owners. -/
  counts : ∀ key, w.table.counts.get? key =
    if w.table.holders absolutePathKey key = 0 then none
    else some (w.table.holders absolutePathKey key : Int)
  preserved : ∀ key ∈ w.table.preserved, ∃ count, w.table.counts.get? key = some count ∧ 0 < count
  /-- No call raises. -/
  total : ∀ a, ∃ w', (machine absolutePathKey).step w a = some w'
  release : ∀ owner, ReleaseOk absolutePathKey w owner
  /-- A sweep is the release of every owner, one after the other. -/
  sweep : w.table.sweep absolutePathKey =
    ((w.popAll absolutePathKey w.table.owned.keys).table,
      (w.popping absolutePathKey w.table.owned.keys).map fun p =>
        (p.1.table.pop absolutePathKey p.2).2)
  swept : ∀ p ∈ w.popping absolutePathKey w.table.owned.keys, ReleaseOk absolutePathKey p.1 p.2

variable {absolutePathKey}

theorem releaseOk (hw : Inv absolutePathKey w) (owner : Nat) :
    ReleaseOk absolutePathKey w owner := by
  cases hget : w.table.owned.get? owner with
  | none =>
    have hpop : w.table.pop absolutePathKey owner = (w.table, { taskKey := [] }) := by
      rw [CleanupRefTable.pop, hget]
    refine ⟨fun path => ?_, fun path => ?_⟩
    · simp [hpop, hget]
    · simp [hpop]
  | some entry =>
    obtain ⟨p, hpop, hpopped⟩ := pop_popped hw hget
    have hmarked : w.marked owner = entry.eligible := by
      rw [hw.marked, hget, Option.any_some]
    have hlast (path : Text) (hpath : path ∈ entry.paths) :
        w.table.holders absolutePathKey (absolutePathKey path) = 1 ↔ ∀ other,
          w.table.holds absolutePathKey other (absolutePathKey path) = true → other = owner := by
      refine holders_eq_one ?_
      rw [holds_eq hget]
      exact decide_eq_true (List.mem_map_of_mem hpath)
    have hzeroed (path : Text) : path ∈ p.zeroed ↔ path ∈ entry.paths ∧
        w.table.holders absolutePathKey (absolutePathKey path) = 1 := by
      rw [hpopped.zeroed]
      simp
    have hclean (path : Text) : path ∈ p.cleanupPaths ↔ path ∈ p.zeroed ∧
        entry.eligible = true ∧ absolutePathKey path ∉ w.table.preserved := by
      rw [hpopped.cleanupPaths, hzeroed]
      simp [and_assoc]
    refine ⟨fun path => ?_, fun path => ?_⟩
    · rw [hpop, hzeroed]
      constructor
      · rintro ⟨hpath, hone⟩
        exact ⟨⟨entry, hget, hpath⟩, (hlast path hpath).1 hone⟩
      · rintro ⟨⟨e, he, hpath⟩, hall⟩
        obtain rfl : entry = e := Option.some.inj (hget.symm.trans he)
        exact ⟨hpath, (hlast path hpath).2 hall⟩
    · rw [hpop, hclean, hmarked, hw.preserved]
      simp only [not_exists, not_and, Bool.not_eq_false]

theorem sweep_eq (w : World) : w.table.sweep absolutePathKey =
    ((w.popAll absolutePathKey w.table.owned.keys).table,
      (w.popping absolutePathKey w.table.owned.keys).map fun p =>
        (p.1.table.pop absolutePathKey p.2).2) := by
  have hfold (owners : List Nat) (w : World) (requests : List ReleaseRequest) :
      owners.foldl (fun (done : CleanupRefTable × List ReleaseRequest) owner =>
        ((done.1.pop absolutePathKey owner).1,
          done.2 ++ [(done.1.pop absolutePathKey owner).2])) (w.table, requests) =
      ((w.popAll absolutePathKey owners).table,
        requests ++ (w.popping absolutePathKey owners).map fun p =>
          (p.1.table.pop absolutePathKey p.2).2) := by
    induction owners generalizing w requests with
    | nil => simp [World.popAll, World.popping]
    | cons owner owners ih =>
      have hnext := ih (w.pop absolutePathKey owner)
        (requests ++ [(w.table.pop absolutePathKey owner).2])
      rw [List.append_assoc] at hnext
      exact hnext
  exact hfold w.table.owned.keys w []

theorem step_inv (hw : Inv absolutePathKey w) (a : Action) :
    ∃ w', (machine absolutePathKey).step w a = some w' ∧ Inv absolutePathKey w' := by
  cases a with
  | register task =>
    obtain ⟨t, hregister, hinv⟩ := register_inv hw task
    refine ⟨_, ?_, hinv⟩
    simp only [machine, World.step, hregister]
    rfl
  | refresh task =>
    obtain ⟨t, hrefresh, hinv⟩ := refresh_inv hw task
    refine ⟨_, ?_, hinv⟩
    simp only [machine, World.step, hrefresh]
    rfl
  | markCleanupEligible task => exact ⟨_, rfl, mark_inv hw task⟩
  | release task => exact ⟨_, rfl, pop_inv hw task.id⟩
  | sweep => exact ⟨_, rfl, popAll_inv hw _⟩

theorem inv_of_reachable (h : (machine absolutePathKey).Reachable w) : Inv absolutePathKey w := by
  refine h.invariant (inv_init absolutePathKey) fun w a w' hw hs => ?_
  obtain ⟨w'', hs', hinv⟩ := step_inv hw a
  obtain rfl : w'' = w' := Option.some.inj (hs'.symm.trans hs)
  exact hinv

theorem cleanup_safe (h : (machine absolutePathKey).Reachable w) : Safe absolutePathKey w := by
  have hw := inv_of_reachable h
  refine ⟨hw.counted, fun key hkey => ?_, fun a => ?_, releaseOk hw, sweep_eq w, fun p hp =>
    releaseOk (popping_inv hw _ p hp) p.2⟩
  · have hpos := hw.preserved_held hkey
    exact ⟨_, (hw.counted key).trans (if_neg hpos.ne'), by omega⟩
  · obtain ⟨w', hs, _⟩ := step_inv hw a
    exact ⟨w', hs⟩

/-- A failed task and a successful one share a volume; the failed one leaves first. -/
def sharedVolume : List Action :=
  [.register { id := 1, allParts := [['a']] }, .register { id := 2, allParts := [['a'], ['b']] },
    .markCleanupEligible { id := 2 }, .release { id := 1 }]

theorem sharedVolume_safe : ∃ w, (machine id).exec (machine id).init sharedVolume = some w ∧
    Safe id w ∧ (w.table.pop id 2).2.paths = [['a'], ['b']] ∧
      (w.table.pop id 2).2.cleanupPaths = [['b']] := by
  refine ⟨_, rfl, cleanup_safe (@Machine.Reachable.of_exec _ _ _ _ sharedVolume rfl), ?_, ?_⟩
  · rfl
  · rfl

end Sunpack.Cleanup
