import Sunpack.CatalogCache.Store

/-!
# What the cache holds

The cache, seen from outside: the persistent rows of every scope, and the stamps. Deltas change it, and
the catalogs follow; what a snapshot keeps of the catalogs gives it back, but for the scope without a
name.
-/

namespace Sunpack.CatalogCache

open Lib Scan Wal

structure Cache where
  rows : Text → Text → Option RowFields
  stamps : Text → Option Stamp

namespace Cache

def empty : Cache := ⟨fun _ _ => none, fun _ => none⟩

/-- A delta removes keys of its scope, then inserts rows, and may set the stamp. -/
def apply (T : DowncaseTable) (c : Cache) (d : Delta) : Cache where
  rows := Function.update c.rows d.scope
    (updates (fun record => T.pathKey record.path) (fun record => some (recordFields record))
      (fun key => if key ∈ d.removed then none else c.rows d.scope key) d.rows)
  stamps := d.stamp.elim c.stamps fun stamp => Function.update c.stamps d.scope (some stamp)

def applyAll (T : DowncaseTable) (c : Cache) (ds : List Delta) : Cache := ds.foldl (apply T) c

/-- The cache after transactions. -/
def after (T : DowncaseTable) (history : List (List Delta)) : Cache :=
  empty.applyAll T history.flatten

/-- The same stamps, and the same rows in every scope that has a name. -/
structure Agrees (a b : Cache) : Prop where
  rows : ∀ scope, scope ≠ [] → a.rows scope = b.rows scope
  stamps : a.stamps = b.stamps

variable {T : DowncaseTable} {a b c : Cache}

theorem Agrees.refl (a : Cache) : a.Agrees a := ⟨fun _ _ => rfl, rfl⟩

theorem Agrees.symm (h : a.Agrees b) : b.Agrees a :=
  ⟨fun scope hscope => (h.rows scope hscope).symm, h.stamps.symm⟩

theorem Agrees.trans (h : a.Agrees b) (h' : b.Agrees c) : a.Agrees c :=
  ⟨fun scope hscope => (h.rows scope hscope).trans (h'.rows scope hscope),
    h.stamps.trans h'.stamps⟩

theorem Agrees.apply (h : a.Agrees b) (d : Delta) : (a.apply T d).Agrees (b.apply T d) := by
  refine ⟨fun scope hscope => ?_, ?_⟩
  · unfold Cache.apply
    dsimp only
    by_cases heq : scope = d.scope
    · subst heq
      rw [Function.update_self, Function.update_self, h.rows d.scope hscope]
    · rw [Function.update_of_ne heq, Function.update_of_ne heq, h.rows scope hscope]
  · unfold Cache.apply
    rw [h.stamps]

theorem Agrees.applyAll (h : a.Agrees b) (ds : List Delta) :
    (a.applyAll T ds).Agrees (b.applyAll T ds) := by
  induction ds generalizing a b with
  | nil => exact h
  | cons d ds ih => exact ih (h.apply d)

theorem applyAll_append (c : Cache) (ds ds' : List Delta) :
    c.applyAll T (ds ++ ds') = (c.applyAll T ds).applyAll T ds' := List.foldl_append

theorem after_append (history : List (List Delta)) (ds : List Delta) :
    after T (history ++ [ds]) = (after T history).applyAll T ds := by
  unfold after
  rw [List.flatten_append, List.flatten_singleton, applyAll_append]

end Cache

variable {Anchor Observation : Type} {T : DowncaseTable}

def cacheOf (catalogs : Catalogs Anchor Observation) (stamps : Dict Text Stamp) : Cache where
  rows scope key := (catalogs.get? scope).bind fun c => persistentRow c key
  stamps := stamps.get?

def AllSound (T : DowncaseTable) (catalogs : Catalogs Anchor Observation) : Prop :=
  ∀ scope c, catalogs.get? scope = some c → Sound T c

theorem allSound_empty : AllSound T (∅ : Catalogs Anchor Observation) := by
  intro scope c h
  rw [Dict.get?_empty] at h
  cases h

theorem AllSound.set {catalogs : Catalogs Anchor Observation} (h : AllSound T catalogs)
    (scope : Text) {c : ScopeCatalog Anchor Observation} (hc : Sound T c) :
    AllSound T (catalogs.set scope c) := by
  intro scope' c' hget
  rw [Dict.get?_set] at hget
  split_ifs at hget
  · exact Option.some.inj hget ▸ hc
  · exact h scope' c' hget

theorem AllSound.getD {catalogs : Catalogs Anchor Observation} (h : AllSound T catalogs)
    (scope : Text) : Sound T ((catalogs.get? scope).getD {}) := by
  cases hget : catalogs.get? scope with
  | none => exact sound_empty
  | some c => exact h scope c hget

theorem persistentRow_getD (catalogs : Catalogs Anchor Observation) (stamps : Dict Text Stamp)
    (scope : Text) : persistentRow ((catalogs.get? scope).getD {}) =
      (cacheOf catalogs stamps).rows scope := by
  unfold cacheOf
  dsimp only
  cases catalogs.get? scope with
  | none => rfl
  | some c => rfl

section Deltas

variable (hdot : ∀ u, T.unit u = '.'.toNat.toUInt16 → u = '.'.toNat.toUInt16)

include hdot

/-- The catalogs follow a delta. -/
theorem AllSound.applyDelta {catalogs : Catalogs Anchor Observation} (h : AllSound T catalogs)
    (stamps : Dict Text Stamp) (d : Delta) :
    AllSound T (CatalogCache.applyDelta T catalogs d) ∧
      cacheOf (CatalogCache.applyDelta T catalogs d) (applyStamp stamps d) =
        (cacheOf catalogs stamps).apply T d := by
  obtain ⟨hremoved, hrows⟩ := (h.getD d.scope).removeMany d.removed
  obtain ⟨hsound, hinserted⟩ := hremoved.insertAll hdot d.rows
  refine ⟨h.set d.scope hsound, ?_⟩
  have hscopes : (cacheOf (CatalogCache.applyDelta T catalogs d) (applyStamp stamps d)).rows =
      ((cacheOf catalogs stamps).apply T d).rows := by
    funext scope
    unfold CatalogCache.applyDelta Cache.apply cacheOf
    dsimp only
    by_cases heq : scope = d.scope
    · subst heq
      rw [Function.update_self, Dict.get?_set_self]
      refine Eq.trans hinserted ?_
      rw [hrows, persistentRow_getD catalogs stamps]
      rfl
    · rw [Function.update_of_ne heq, Dict.get?_set_of_ne _ heq]
  have hstamps : (cacheOf (CatalogCache.applyDelta T catalogs d) (applyStamp stamps d)).stamps =
      ((cacheOf catalogs stamps).apply T d).stamps := by
    unfold applyStamp Cache.apply cacheOf
    cases d.stamp with
    | none => rfl
    | some stamp => exact Dict.get?_set_eq_update stamps d.scope stamp
  calc cacheOf (CatalogCache.applyDelta T catalogs d) (applyStamp stamps d)
      = ⟨((cacheOf catalogs stamps).apply T d).rows,
          ((cacheOf catalogs stamps).apply T d).stamps⟩ := by rw [← hscopes, ← hstamps]
    _ = (cacheOf catalogs stamps).apply T d := rfl

/-- What was loaded follows the deltas of a transaction. -/
theorem foldl_delta {l : Loaded Anchor Observation} (h : AllSound T l.catalogs)
    (ds : List Delta) :
    AllSound T (ds.foldl (Loaded.delta T) l).catalogs ∧
      cacheOf (ds.foldl (Loaded.delta T) l).catalogs (ds.foldl (Loaded.delta T) l).stamps =
        (cacheOf l.catalogs l.stamps).applyAll T ds ∧
      (ds.foldl (Loaded.delta T) l).edits = l.edits + (ds.map Delta.edits).sum := by
  induction ds generalizing l with
  | nil => exact ⟨h, rfl, rfl⟩
  | cons d ds ih =>
    obtain ⟨hsound, hcache⟩ := h.applyDelta hdot l.stamps d
    obtain ⟨hsound', hcache', hedits⟩ := @ih (l.delta T d) hsound
    refine ⟨hsound', ?_, ?_⟩
    · refine hcache'.trans ?_
      rw [show cacheOf (l.delta T d).catalogs (l.delta T d).stamps = _ from hcache]
      rfl
    · rw [List.foldl_cons, hedits, List.map_cons, List.sum_cons, ← Nat.add_assoc]
      rfl

/-! ## Snapshots -/

/-- What a snapshot keeps of the catalogs. -/
theorem AllSound.exists_rows {catalogs : Catalogs Anchor Observation} (h : AllSound T catalogs)
    (stamps : Dict Text Stamp) : ∃ rows : List (Text × List DirectoryEntryRecord),
      catalogRows catalogs = rows.map (fun e => (e.1, e.2.length, e.2.map recordFields)) ∧
      AllSound T (rows.foldl (fun catalogs e => catalogs.set e.1
        (e.2.foldl (ScopeCatalog.insert T) {})) (∅ : Catalogs Anchor Observation)) ∧
      (cacheOf (rows.foldl (fun catalogs e => catalogs.set e.1
        (e.2.foldl (ScopeCatalog.insert T) {})) (∅ : Catalogs Anchor Observation))
          stamps).Agrees (cacheOf catalogs stamps) := by
  set entries := catalogs.entries.filter fun e => e.1 ≠ [] with hentries
  have hget : ∀ e ∈ entries, catalogs.get? e.1 = some e.2 := fun e he =>
    Dict.mem_entries.1 (List.mem_filter.1 he).1
  have hrecords : ∀ e ∈ entries, ∃ records : List DirectoryEntryRecord,
      records.map recordFields = persistentRows e.2 ∧
      persistentRow (records.foldl (ScopeCatalog.insert T)
        ({} : ScopeCatalog Anchor Observation)) = persistentRow e.2 :=
    fun e he => (h e.1 e.2 (hget e he)).exists_records hdot
  choose! records hfields hback using hrecords
  set rows := entries.map fun e => (e.1, records e) with hrows
  have hnodup : (rows.map Prod.fst).Nodup := by
    rw [hrows, List.map_map]
    exact catalogs.nodup.sublist (List.filter_sublist.map Prod.fst)
  -- the rebuilt catalog of a scope, and the missing one of another
  have hmem : ∀ e ∈ entries, (rows.foldl (fun catalogs e => catalogs.set e.1
      (e.2.foldl (ScopeCatalog.insert T) {})) (∅ : Catalogs Anchor Observation)).get? e.1 =
        some ((records e).foldl (ScopeCatalog.insert T) {}) := by
    intro e he
    rw [Dict.get?_foldl_set]
    exact updates_of_mem hnodup (List.mem_map.2 ⟨e, he, rfl⟩)
  have hnone : ∀ scope, scope ∉ entries.map Prod.fst → (rows.foldl (fun catalogs e =>
      catalogs.set e.1 (e.2.foldl (ScopeCatalog.insert T) {}))
        (∅ : Catalogs Anchor Observation)).get? scope = none := by
    intro scope hscope
    rw [Dict.get?_foldl_set]
    refine updates_of_notMem ?_
    rw [hrows, List.map_map]
    exact hscope
  refine ⟨rows, ?_, fun scope c hc => ?_, fun scope hscope => ?_, rfl⟩
  · rw [hrows, List.map_map, catalogRows]
    refine List.map_congr_left fun e he => ?_
    have hlen := persistentRows_length (h e.1 e.2 (hget e he))
    rw [← hfields e he, List.length_map] at hlen
    rw [Function.comp_apply, ← hlen, hfields e he]
  · by_cases hscope : scope ∈ entries.map Prod.fst
    · obtain ⟨e, he, rfl⟩ := List.mem_map.1 hscope
      rw [hmem e he] at hc
      exact Option.some.inj hc ▸ (sound_empty.insertAll hdot (records e)).1
    · rw [hnone scope hscope] at hc
      cases hc
  · unfold cacheOf
    dsimp only
    by_cases hentry : scope ∈ entries.map Prod.fst
    · obtain ⟨e, he, rfl⟩ := List.mem_map.1 hentry
      rw [hmem e he, hget e he]
      exact hback e he
    · have habsent : catalogs.get? scope = none := by
        rw [Dict.get?_eq_none, Dict.keys]
        intro hkey
        obtain ⟨e, he, rfl⟩ := List.mem_map.1 hkey
        exact hentry (List.mem_map.2 ⟨e, List.mem_filter.2 ⟨he, decide_eq_true hscope⟩, rfl⟩)
      rw [hnone scope hentry, habsent]

end Deltas

end Sunpack.CatalogCache
