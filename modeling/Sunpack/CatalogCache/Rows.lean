import Sunpack.Scan.CatalogRuns
import Sunpack.Lib.Updates

/-!
# The persistent rows of a catalog

What of a catalog is on disk: the four fields of every persistent row, at its key. They follow the
calls on the catalog, whatever it keeps beside them; and the records of a catalog, inserted into an
empty one, give them back.
-/

namespace Sunpack.CatalogCache

open Lib Scan

/-- The four fields that are stored. -/
structure RowFields where
  path : Text
  isDir : Bool
  size : Option Nat
  mtimeNs : Option Nat
deriving DecidableEq

def recordFields (record : DirectoryEntryRecord) : RowFields :=
  ⟨record.path, record.isDir, record.size, record.mtimeNs⟩

variable {Anchor Observation : Type}

/-- `CatalogRow::record` as it is serialized. -/
def rowFields (row : CatalogRow Anchor Observation) : RowFields :=
  ⟨row.path, row.isDir, row.size?, row.mtimeNs?⟩

def persistentRow (c : ScopeCatalog Anchor Observation) (key : Text) : Option RowFields :=
  ((c.rows.get? key).filter (·.persistent)).map rowFields

variable {T : DowncaseTable} {c : ScopeCatalog Anchor Observation}

/-- A catalog that calls have made. -/
structure Sound (T : DowncaseTable) (c : ScopeCatalog Anchor Observation) : Prop where
  inv : c.Inv T [] []
  entry : ∀ key row, c.rows.get? key = some row → IsEntryPath row.path

theorem sound_empty : Sound T ({} : ScopeCatalog Anchor Observation) where
  inv := ScopeCatalog.inv_empty
  entry key row h := by cases h

/-! ## Calls -/

theorem rowFields_inserted (old : Option (CatalogRow Anchor Observation))
    (record : DirectoryEntryRecord) (transient : Bool) :
    rowFields (ScopeCatalog.insertedRow old record transient) = recordFields record := by
  obtain ⟨hsize, hmtime⟩ := ScopeCatalog.insertedRow_size old record transient
  have hpath := (ScopeCatalog.insertedRow_ok old record transient).1
  unfold rowFields recordFields
  rw [hsize, hmtime, hpath]
  rfl

section Calls

variable (hdot : ∀ u, T.unit u = '.'.toNat.toUInt16 → u = '.'.toNat.toUInt16)

include hdot

theorem Sound.insertRow (h : Sound T c) (record : DirectoryEntryRecord) (transient : Bool) :
    Sound T (c.insertRow T (T.pathKey record.path) record transient) := by
  obtain ⟨hinv, hrows, -⟩ := h.inv.insertRow hdot record transient
  refine ⟨hinv, fun key row hget => ?_⟩
  rw [hrows] at hget
  split_ifs at hget
  · obtain rfl := Option.some.inj hget
    rw [(ScopeCatalog.insertedRow_ok _ record transient).1]
    exact record.entry
  · exact h.entry key row hget

theorem persistentRow_insert (h : Sound T c) (record : DirectoryEntryRecord) :
    persistentRow (c.insert T record) = Function.update (persistentRow c) (T.pathKey record.path)
      (some (recordFields record)) := by
  obtain ⟨-, hrows, -⟩ := h.inv.insertRow hdot record false
  funext key
  unfold persistentRow
  rw [show c.insert T record = c.insertRow T (T.pathKey record.path) record false from rfl, hrows,
    Function.update_apply]
  split_ifs
  · rw [Option.filter_some, if_pos (by rfl), Option.map_some, rowFields_inserted]
  · rfl

/-- The rows of a delta or of a snapshot, inserted. -/
theorem Sound.insertAll (h : Sound T c) (records : List DirectoryEntryRecord) :
    Sound T (records.foldl (ScopeCatalog.insert T) c) ∧
      persistentRow (records.foldl (ScopeCatalog.insert T) c) =
        updates (fun record => T.pathKey record.path) (fun record => some (recordFields record))
          (persistentRow c) records := by
  induction records generalizing c with
  | nil => exact ⟨h, rfl⟩
  | cons record records ih =>
    obtain ⟨hsound, hrows⟩ := ih (h.insertRow hdot record false)
    refine ⟨hsound, hrows.trans ?_⟩
    rw [updates_cons, ← persistentRow_insert hdot h]
    rfl

omit hdot in
theorem Sound.removeMany (h : Sound T c) (keys : List Text) :
    Sound T (c.removeMany T keys) ∧
      persistentRow (c.removeMany T keys) =
        fun key => if key ∈ keys then none else persistentRow c key := by
  obtain ⟨hinv, hrows⟩ := h.inv.removeMany keys
  refine ⟨⟨hinv, fun key row hget => ?_⟩, ?_⟩
  · rw [hrows, Dict.get?_foldl_erase] at hget
    split_ifs at hget
    exact h.entry key row hget
  · funext key
    unfold persistentRow
    rw [hrows, Dict.get?_foldl_erase]
    split_ifs <;> rfl

theorem Sound.call (h : Sound T c) (call : Call Anchor Observation) : Sound T (c.call T call) := by
  cases call with
  | insert record => exact h.insertRow hdot record false
  | insertKey record => exact h.insertRow hdot record false
  | insertTransient record => exact h.insertRow hdot record true
  | remove key => exact (h.removeMany [key]).1
  | removeMany keys => exact (h.removeMany keys).1
  | remember key cheapAnchor observation =>
    refine ⟨h.inv.call hdot _, fun key' row' hget => ?_⟩
    unfold ScopeCatalog.call at hget
    dsimp only at hget
    cases hrow : c.rows.get? key with
    | none =>
      rw [hrow] at hget
      exact h.entry key' row' hget
    | some row =>
      rw [hrow] at hget
      dsimp only at hget
      rw [Dict.get?_set] at hget
      split_ifs at hget
      · obtain rfl := Option.some.inj hget
        exact h.entry key row hrow
      · exact h.entry key' row' hget

end Calls

/-! ## The records of a catalog -/

def rowRecord (row : CatalogRow Anchor Observation) (h : IsEntryPath row.path) :
    DirectoryEntryRecord :=
  ⟨row.path, row.isDir, row.size?, row.mtimeNs?, h⟩

theorem recordFields_rowRecord (row : CatalogRow Anchor Observation) (h : IsEntryPath row.path) :
    recordFields (rowRecord row h) = rowFields row := rfl

/-- `self.0.rows.values().filter(|row| row.persistent())` -/
def persistentRows (c : ScopeCatalog Anchor Observation) : List RowFields :=
  (c.rows.values.filter (·.persistent)).map rowFields

theorem persistentRows_length (h : Sound T c) : (persistentRows c).length = c.persistentLen := by
  rw [h.inv.persistent, persistentRows, List.length_map, Dict.values, Dict.count,
    ← List.countP_eq_length_filter, List.countP_map]
  rfl

/-- What a catalog stores are the fields of records, and these give its persistent rows back. -/
theorem Sound.exists_records (hdot : ∀ u, T.unit u = '.'.toNat.toUInt16 → u = '.'.toNat.toUInt16)
    (h : Sound T c) : ∃ records : List DirectoryEntryRecord,
      records.map recordFields = persistentRows c ∧
      persistentRow (records.foldl (ScopeCatalog.insert T)
        ({} : ScopeCatalog Anchor Observation)) = persistentRow c := by
  set entries := c.rows.entries.filter fun e => e.2.persistent with hentries
  have hget : ∀ e ∈ entries, c.rows.get? e.1 = some e.2 ∧ e.2.persistent = true := by
    intro e he
    obtain ⟨he, hpersistent⟩ := List.mem_filter.1 he
    exact ⟨Dict.mem_entries.1 he, hpersistent⟩
  have hpath : ∀ e ∈ entries, IsEntryPath e.2.path := fun e he => h.entry e.1 e.2 (hget e he).1
  set records := entries.pmap (fun e he => rowRecord e.2 he) hpath with hrecords
  have hkeys : records.map (fun record => T.pathKey record.path) = entries.map Prod.fst := by
    rw [hrecords, List.map_pmap, ← List.pmap_eq_map hpath]
    exact List.pmap_congr_left _ fun e he _ _ => (h.inv.rows e.1 e.2 (hget e he).1).1
  have hnodup : (records.map fun record => T.pathKey record.path).Nodup := by
    rw [hkeys]
    exact c.rows.nodup.sublist (List.filter_sublist.map Prod.fst)
  refine ⟨records, ?_, ?_⟩
  · rw [hrecords, List.map_pmap, persistentRows, Dict.values, List.filter_map, List.map_map]
    show entries.pmap (fun e _ => rowFields e.2) hpath = _
    rw [List.pmap_eq_map]
    rfl
  · rw [(sound_empty.insertAll hdot records).2]
    funext key
    by_cases hkey : key ∈ entries.map Prod.fst
    · obtain ⟨e, he, rfl⟩ := List.mem_map.1 hkey
      have hmem : rowRecord e.2 (hpath e he) ∈ records := List.mem_pmap.2 ⟨e, he, rfl⟩
      have hat : updates (fun record => T.pathKey record.path)
          (fun record => some (recordFields record))
          (persistentRow ({} : ScopeCatalog Anchor Observation)) records
          (T.pathKey (rowRecord e.2 (hpath e he)).path) =
            some (recordFields (rowRecord e.2 (hpath e he))) := updates_of_mem hnodup hmem
      have hkeyOf : T.pathKey (rowRecord e.2 (hpath e he)).path = e.1 :=
        (h.inv.rows e.1 e.2 (hget e he).1).1
      rw [hkeyOf] at hat
      rw [hat, recordFields_rowRecord, persistentRow, (hget e he).1, Option.filter_some,
        if_pos (hget e he).2, Option.map_some]
    · rw [updates_of_notMem (by rwa [hkeys])]
      have hnone : (c.rows.get? key).filter (·.persistent) = none := by
        rw [Option.filter_eq_none_iff]
        intro row hrow hpersistent
        exact hkey (List.mem_map.2 ⟨(key, row), List.mem_filter.2
          ⟨Dict.mem_entries.2 hrow, hpersistent⟩, rfl⟩)
      rw [persistentRow, persistentRow, hnone]
      rfl

end Sunpack.CatalogCache
