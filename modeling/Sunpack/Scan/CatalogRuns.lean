import Sunpack.Scan.CatalogIndexes

/-!
# Calls on the scope catalog

Removals in batches, insertions, and whole sequences of calls.
-/

namespace Sunpack.Scan.ScopeCatalog

open Lib

variable {Anchor Observation : Type} {T : DowncaseTable} {c c' : ScopeCatalog Anchor Observation}

/-! ## Removals -/

theorem Inv.removeRow {dirty building : List Text} (h : Inv T dirty building c) (key : Text) :
    Inv T (removeRow T (dirty, c) key).1 building (removeRow T (dirty, c) key).2 ∧
      (removeRow T (dirty, c) key).2.rows = c.rows.erase key := by
  unfold ScopeCatalog.removeRow
  dsimp only
  cases hget : c.rows.get? key with
  | none => exact ⟨h, (Dict.eq_of_entries (Dict.erase_of_get?_none hget)).symm⟩
  | some row =>
    obtain ⟨hinv, hrows, -⟩ := h.removeIndexes hget (some dirty) rfl
    exact ⟨hinv, hrows⟩

theorem Inv.removeRows {dirty building : List Text} (h : Inv T dirty building c) (keys : List Text) :
    Inv T (keys.foldl (ScopeCatalog.removeRow T) (dirty, c)).1 building
        (keys.foldl (ScopeCatalog.removeRow T) (dirty, c)).2 ∧
      (keys.foldl (ScopeCatalog.removeRow T) (dirty, c)).2.rows = keys.foldl Dict.erase c.rows := by
  induction keys generalizing dirty c with
  | nil => exact ⟨h, rfl⟩
  | cons key keys ih =>
    obtain ⟨hinv, hrows⟩ := h.removeRow key
    obtain ⟨hinv', hrows'⟩ := ih hinv
    rw [hrows] at hrows'
    exact ⟨hinv', hrows'⟩

theorem Inv.cleanStem {stem : Text} {dirty building : List Text}
    (h : Inv T (stem :: dirty) building c) :
    Inv T dirty building (c.cleanStem stem) ∧ (c.cleanStem stem).rows = c.rows := by
  obtain ⟨hkeys, hne, hrows, hparents, hlen⟩ :=
    retainBucket_spec c stem (fun key => (c.rows.get? key).isSome) h.nonempty
  have hindexed : ∀ stem' key, (c.cleanStem stem).Indexed T stem' key ↔ c.Indexed T stem' key := by
    intro stem' key
    unfold Indexed
    rw [show (c.cleanStem stem).rows = c.rows from hrows]
  have hreferences : ∀ q, (c.cleanStem stem).references q = c.references q := by
    intro q
    unfold references
    rw [show (c.cleanStem stem).rows = c.rows from hrows]
  refine ⟨⟨fun key row hget => h.rows key row ?_, ?_, fun stem' key hi => ?_,
    fun stem' key hmem => ?_, fun stem' => ?_, hne, fun q => ?_⟩, hrows⟩
  · rwa [show (c.cleanStem stem).rows = c.rows from hrows] at hget
  · rw [show (c.cleanStem stem).persistentLen = c.persistentLen from hlen,
      show (c.cleanStem stem).rows = c.rows from hrows]
    exact h.persistent
  · have hi := (hindexed stem' key).1 hi
    have hmem := h.complete stem' key hi
    rw [show (c.cleanStem stem).keysOf stem' = _ from hkeys stem']
    split_ifs with heq
    · obtain ⟨row, hget, -⟩ := hi
      exact List.mem_filter.2 ⟨heq ▸ hmem, by rw [hget]; rfl⟩
    · exact hmem
  · rw [show (c.cleanStem stem).keysOf stem' = _ from hkeys stem'] at hmem
    rw [hindexed, show (c.cleanStem stem).rows = c.rows from hrows]
    split_ifs at hmem with heq
    · obtain ⟨hmem, hsome⟩ := List.mem_filter.1 hmem
      rcases h.sound stem key hmem with hi | ⟨-, hnone⟩
      · exact .inl (heq ▸ hi)
      · rw [hnone] at hsome
        cases hsome
    · rcases h.sound stem' key hmem with hi | ⟨hdirty, hnone⟩
      · exact .inl hi
      · exact .inr ⟨(List.mem_cons.1 hdirty).resolve_left heq, hnone⟩
  · rw [show (c.cleanStem stem).keysOf stem' = _ from hkeys stem']
    split_ifs
    · exact (h.nodup stem).filter _
    · exact h.nodup stem'
  · rw [show (c.cleanStem stem).parents = c.parents from hparents, hreferences]
    exact h.parents q

theorem Inv.cleanStems {dirty building : List Text} (h : Inv T dirty building c) :
    Inv T [] building (dirty.foldl ScopeCatalog.cleanStem c) ∧
      (dirty.foldl ScopeCatalog.cleanStem c).rows = c.rows := by
  induction dirty generalizing c with
  | nil => exact ⟨h, rfl⟩
  | cons stem dirty ih =>
    obtain ⟨hinv, hrows⟩ := h.cleanStem
    obtain ⟨hinv', hrows'⟩ := ih hinv
    exact ⟨hinv', hrows'.trans hrows⟩

theorem Inv.removeMany {building : List Text} (h : Inv T [] building c) (keys : List Text) :
    Inv T [] building (c.removeMany T keys) ∧
      (c.removeMany T keys).rows = keys.foldl Dict.erase c.rows := by
  obtain ⟨hinv, hrows⟩ := h.removeRows keys
  obtain ⟨hinv', hrows'⟩ := hinv.cleanStems
  exact ⟨hinv', hrows'.trans hrows⟩

/-! ## Insertions -/

/-- The rows with another row at a key, in whatever order. -/
def Replaces (rows rows' : Dict Text (CatalogRow Anchor Observation)) (key : Text)
    (row : CatalogRow Anchor Observation) : Prop :=
  (∀ key', rows'.get? key' = if key' = key then some row else rows.get? key') ∧
    ∀ p : CatalogRow Anchor Observation → Bool,
      rows'.count (fun _ row => p row) + ((rows.get? key).any p).toNat =
        rows.count (fun _ row => p row) + (p row).toNat

theorem replaces_set (rows : Dict Text (CatalogRow Anchor Observation)) (key : Text)
    (row : CatalogRow Anchor Observation) : Replaces rows (rows.set key row) key row :=
  ⟨fun key' => Dict.get?_set rows key key' row,
    fun p => Dict.count_set rows (fun _ row => p row) key row⟩

theorem replaces_erase_set (rows : Dict Text (CatalogRow Anchor Observation)) (key : Text)
    (row : CatalogRow Anchor Observation) :
    Replaces rows ((rows.erase key).set key row) key row := by
  refine ⟨fun key' => ?_, fun p => ?_⟩
  · rw [Dict.get?_set]
    split_ifs with heq
    · rfl
    · exact Dict.get?_erase_of_ne _ heq
  · have hset := Dict.count_set (rows.erase key) (fun _ row => p row) key row
    have herase : (rows.erase key).count (fun _ row => p row) + ((rows.get? key).any p).toNat =
      rows.count (fun _ row => p row) := Dict.count_erase rows (fun _ row => p row) key
    rw [Dict.holds, Dict.get?_erase_self] at hset
    simp only [Option.any_none, Bool.toNat_false, Nat.add_zero] at hset
    omega

theorem indexed_replaced {key : Text} {row : CatalogRow Anchor Observation}
    (hrows : Replaces c.rows c'.rows key row) (stem key' : Text) : c'.Indexed T stem key' ↔
      if key' = key then row.persistent = true ∧ row.isDir = false ∧ catalogStem T row.path = stem
      else c.Indexed T stem key' := by
  unfold Indexed
  rw [hrows.1]
  split_ifs <;> simp

/-- The row of a key is replaced, or is a new one; the buckets follow. -/
theorem Inv.setRow {building building' : List Text} (h : Inv T [] building c) {key : Text}
    {row : CatalogRow Anchor Observation} (hkey : T.pathKey row.path = key) (hok : RowOk row)
    (hrows : Replaces c.rows c'.rows key row)
    (hlen : c'.persistentLen + ((c.rows.get? key).any (·.persistent)).toNat =
      c.persistentLen + row.persistent.toNat)
    (hkeys : ∀ stem key', key' ∈ c'.keysOf stem ↔ c'.Indexed T stem key')
    (hnodup : ∀ stem, (c'.keysOf stem).Nodup) (hne : c'.NoEmptyBucket)
    (hparents : ∀ q, c'.parents.get? q = strongCount (c'.references q + building'.count q)) :
    Inv T [] building' c' where
  rows key' row' hget := by
    rw [hrows.1] at hget
    split_ifs at hget with heq
    · obtain rfl := Option.some.inj hget
      exact ⟨hkey.trans heq.symm, hok⟩
    · exact h.rows key' row' hget
  persistent := by
    have hcount := hrows.2 (·.persistent)
    have hold := h.persistent
    omega
  complete stem key' hi := (hkeys stem key').2 hi
  sound stem key' hmem := .inl ((hkeys stem key').1 hmem)
  nodup := hnodup
  nonempty := hne
  parents := hparents

theorem Inv.mem_keysOf {building : List Text} (h : Inv T [] building c) (stem key : Text) :
    key ∈ c.keysOf stem ↔ c.Indexed T stem key := by
  constructor
  · intro hmem
    exact (h.sound stem key hmem).resolve_right fun hdirty => List.not_mem_nil hdirty.1
  · exact h.complete stem key

theorem references_replaced {key : Text} {row : CatalogRow Anchor Observation}
    (hrows : Replaces c.rows c'.rows key row) (q : Text) :
    c'.references q + ((c.rows.get? key).any (·.parent = q)).toNat =
      c.references q + (if q = row.parent then 1 else 0) := by
  refine (hrows.2 (·.parent = q)).trans ?_
  unfold references
  congr 1
  by_cases hq : q = row.parent
  · simp [hq]
  · simp [hq, Ne.symm hq]

/-- The row of the key is one of the references. -/
theorem any_parent {key : Text} {old : CatalogRow Anchor Observation}
    (hget : c.rows.get? key = some old) (q : Text) :
    ((c.rows.get? key).any (·.parent = q)).toNat = if q = old.parent then 1 else 0 := by
  rw [hget, Option.any_some]
  by_cases hq : q = old.parent
  · simp [hq]
  · simp [hq, Ne.symm hq]

/-- A row is replaced by one with its path, its kind and its persistence. -/
theorem Inv.replace {building : List Text} (h : Inv T [] building c) {key : Text}
    {old row : CatalogRow Anchor Observation} (hget : c.rows.get? key = some old)
    (hparent : row.parent = old.parent) (hname : row.name = old.name)
    (hdir : row.isDir = old.isDir) (hpersistent : row.persistent = old.persistent) :
    Inv T [] building { c with rows := c.rows.set key row } := by
  have hpath : row.path = old.path := by
    rw [CatalogRow.path, CatalogRow.path, hparent, hname]
  obtain ⟨hkey, hok⟩ := h.rows key old hget
  refine h.setRow (by rw [hpath]; exact hkey) ⟨?_, ?_⟩ (replaces_set c.rows key row) ?_
    (fun stem key' => ?_) h.nodup h.nonempty fun q => ?_
  · rw [hpath, hparent]
    exact hok.parent
  · rw [hpath, hname]
    exact hok.name
  · rw [hget, Option.any_some, hpersistent]
  · rw [indexed_replaced (replaces_set c.rows key row)]
    refine (h.mem_keysOf stem key').trans ?_
    split_ifs with heq
    · subst heq
      unfold Indexed
      rw [hget, hpath, hpersistent, hdir]
      simp
    · exact Iff.rfl
  · have hrefs := @references_replaced _ _ c { c with rows := c.rows.set key row } key row
      (replaces_set c.rows key row) q
    rw [any_parent hget, hparent] at hrefs
    refine (h.parents q).trans ?_
    congr 2
    omega

theorem splitPath (path : Text) : parentOf path ++ nameOf path = path :=
  List.rdropWhile_append_rtakeWhile

theorem rowOk_of_record {row : CatalogRow Anchor Observation} {path : Text}
    (hparent : row.parent = parentOf path) (hname : row.name = nameOf path) :
    row.path = path ∧ RowOk row := by
  have hpath : row.path = path := by rw [CatalogRow.path, hparent, hname, splitPath]
  exact ⟨hpath, by rw [hpath, hparent], by rw [hpath, hname]⟩

theorem indexRow_spec (c : ScopeCatalog Anchor Observation) (key path : Text)
    (row : CatalogRow Anchor Observation) (hne : c.NoEmptyBucket) :
    (∀ stem, (indexRow T c key path row).keysOf stem =
      if row.isDir = false ∧ stem = catalogStem T path then c.keysOf stem ++ [key]
      else c.keysOf stem) ∧
    (indexRow T c key path row).NoEmptyBucket ∧
    (indexRow T c key path row).parents = c.parents ∧
    (indexRow T c key path row).persistentLen = c.persistentLen + 1 ∧
    (indexRow T c key path row).rows = c.rows := by
  unfold indexRow
  dsimp only
  cases hdir : row.isDir with
  | true =>
    rw [if_pos rfl]
    refine ⟨fun stem => ?_, hne, rfl, rfl, rfl⟩
    rw [if_neg fun h => Bool.noConfusion h.1]
    rfl
  | false =>
    rw [if_neg Bool.false_ne_true]
    obtain ⟨hkeys, hne', hrows, hparents, hlen⟩ := pushBucket_spec
      { c with persistentLen := c.persistentLen + 1 } (catalogStem T path) key hne
    refine ⟨fun stem => ?_, hne', hparents, hlen, hrows⟩
    rw [hkeys]
    by_cases heq : stem = catalogStem T path
    · rw [if_pos heq, if_pos ⟨rfl, heq⟩, heq]
      rfl
    · rw [if_neg heq, if_neg fun h => heq h.2]
      rfl

/-- A new row, whose parent is interned already. -/
def addRow (T : DowncaseTable) (c : ScopeCatalog Anchor Observation) (key path : Text)
    (row : CatalogRow Anchor Observation) : ScopeCatalog Anchor Observation :=
  let c := if row.persistent then indexRow T c key path row else c
  { c with rows := c.rows.set key row }

theorem Inv.addRow {key : Text} {row : CatalogRow Anchor Observation}
    (h : Inv T [] [row.parent] c) (hget : c.rows.get? key = none) (hkey : T.pathKey row.path = key)
    (hok : RowOk row) :
    Inv T [] [] (addRow T c key row.path row) ∧
      (addRow T c key row.path row).rows = c.rows.set key row := by
  have hnew : ∀ stem, key ∉ c.keysOf stem := by
    intro stem hmem
    obtain ⟨row', hget', -⟩ := (h.mem_keysOf stem key).1 hmem
    rw [hget] at hget'
    cases hget'
  have hnone : ∀ p : CatalogRow Anchor Observation → Bool, ((c.rows.get? key).any p).toNat = 0 := by
    intro p
    rw [hget]
    rfl
  have hrefs : ∀ m : ScopeCatalog Anchor Observation, m.rows = c.rows.set key row →
      m.parents = c.parents →
      ∀ q, m.parents.get? q = strongCount (m.references q + ([] : List Text).count q) := by
    intro m hrows hparents q
    have hset := references_replaced (hrows ▸ replaces_set c.rows key row : Replaces _ m.rows _ _) q
    have hcount : ([row.parent] : List Text).count q = if q = row.parent then 1 else 0 := by
      by_cases hq : q = row.parent
      · simp [hq]
      · simp [hq, Ne.symm hq]
    rw [hnone] at hset
    rw [hparents, h.parents q, hcount]
    congr 1
    rw [List.count_nil]
    omega
  obtain ⟨hkeys, hne, hparents, hlen, hsame⟩ :=
    indexRow_spec (T := T) c key row.path row h.nonempty
  unfold ScopeCatalog.addRow
  cases hpersistent : row.persistent with
  | false =>
    rw [if_neg Bool.false_ne_true]
    refine ⟨?_, rfl⟩
    refine h.setRow hkey hok (replaces_set c.rows key row) ?_ (fun stem key' => ?_) h.nodup h.nonempty (hrefs _ rfl rfl)
    · rw [hnone, hpersistent]
      rfl
    · rw [indexed_replaced (replaces_set c.rows key row), ← h.mem_keysOf]
      split_ifs with heq
      · rw [hpersistent, heq]
        exact ⟨fun hmem => absurd hmem (hnew stem), fun hfalse => Bool.noConfusion hfalse.1⟩
      · exact Iff.rfl
  | true =>
    rw [if_pos rfl]
    dsimp only
    rw [hsame]
    refine ⟨?_, rfl⟩
    refine h.setRow hkey hok (replaces_set c.rows key row) ?_ (fun stem key' => ?_) (fun stem => ?_) hne (hrefs _ rfl hparents)
    · rw [hnone, hpersistent]
      exact hlen
    · rw [indexed_replaced (replaces_set c.rows key row), ← h.mem_keysOf, hpersistent]
      show key' ∈ (indexRow T c key row.path row).keysOf stem ↔ _
      rw [hkeys]
      by_cases heq : key' = key
      · subst heq
        rw [if_pos rfl]
        split_ifs with hplace
        · exact ⟨fun _ => ⟨rfl, hplace.1, hplace.2.symm⟩,
            fun _ => List.mem_append_right _ (List.mem_singleton_self _)⟩
        · exact ⟨fun hmem => absurd hmem (hnew stem),
            fun hindexed => absurd ⟨hindexed.2.1, hindexed.2.2.symm⟩ hplace⟩
      · rw [if_neg heq]
        split_ifs
        · rw [List.mem_append, List.mem_singleton, or_iff_left heq]
        · exact Iff.rfl
    · show ((indexRow T c key row.path row).keysOf stem).Nodup
      rw [hkeys]
      split_ifs
      · exact List.concat_eq_append ▸ (h.nodup stem).concat (hnew stem)
      · exact h.nodup stem

/-- A new row takes the places of the old one in the indexes: it is persistent too, and of the same
kind. -/
theorem Inv.reuseRow {key : Text} {row old : CatalogRow Anchor Observation}
    (h : Inv T [] [row.parent] c) (hget : c.rows.get? key = some old)
    (hkey : T.pathKey row.path = key) (hok : RowOk row)
    (hpersistent : row.persistent = old.persistent) (hdir : row.isDir = old.isDir)
    (hstem : catalogStem T row.path = catalogStem T old.path)
    (hrows : Replaces c.rows c'.rows key row) (hbuckets : c'.buckets = c.buckets)
    (hlen : c'.persistentLen = c.persistentLen)
    (hparents : c'.parents = (c.releaseParent old).parents) : Inv T [] [] c' := by
  have hsame : ∀ stem, c'.keysOf stem = c.keysOf stem := by
    intro stem
    unfold keysOf
    rw [hbuckets]
  refine h.setRow hkey hok hrows ?_ (fun stem key' => ?_) (fun stem => ?_) ?_ fun q => ?_
  · rw [hlen, hget, Option.any_some, hpersistent]
  · rw [hsame, h.mem_keysOf, indexed_replaced hrows]
    split_ifs with heq
    · subst heq
      unfold Indexed
      rw [hget, hpersistent, hdir, hstem]
      simp
    · exact Iff.rfl
  · rw [hsame]
    exact h.nodup stem
  · unfold NoEmptyBucket
    rw [hbuckets]
    exact h.nonempty
  · have hcount : ([row.parent] : List Text).count q = if q = row.parent then 1 else 0 := by
      by_cases hq : q = row.parent
      · simp [hq]
      · simp [hq, Ne.symm hq]
    have hrefs := references_replaced hrows q
    have hpos : 0 < c.references old.parent + ([row.parent] : List Text).count old.parent := by
      have hold := references_erase hget
        (show ({ c with rows := c.rows.erase key } : ScopeCatalog Anchor Observation).rows =
          c.rows.erase key from rfl) old.parent
      rw [if_pos rfl] at hold
      omega
    rw [any_parent hget] at hrefs
    rw [hparents, releaseParent_parents h.parents hpos q, hcount, List.count_nil]
    congr 1
    omega

/-! ## One insertion -/

/-- The row of a key after the insertion of a record. -/
def insertedRow (old : Option (CatalogRow Anchor Observation)) (record : DirectoryEntryRecord)
    (transient : Bool) : CatalogRow Anchor Observation where
  parent := parentOf record.path
  name := nameOf record.path
  size := record.size.getD 0
  mtimeNs := record.mtimeNs.getD 0
  flags := record.flags transient
  cheapAnchor := old.bind fun old =>
    if transient = false ∧ old.persistent = true ∧ old.isDir = record.isDir ∧
        old.path = record.path ∧ old.size? = record.size ∧ old.mtimeNs? = record.mtimeNs then
      old.cheapAnchor
    else none
  observation := old.bind (·.observation)

theorem insertedRow_ok (old : Option (CatalogRow Anchor Observation))
    (record : DirectoryEntryRecord) (transient : Bool) :
    (insertedRow old record transient).path = record.path ∧
      RowOk (insertedRow old record transient) :=
  rowOk_of_record rfl rfl

/-- The old row takes the size and the time of the record. -/
theorem updateInPlace_eq {old : CatalogRow Anchor Observation} {record : DirectoryEntryRecord}
    (hok : RowOk old) (hpersistent : old.persistent = true) (hdir : old.isDir = record.isDir)
    (hpath : record.path = old.path) :
    updateInPlace old record = insertedRow (some old) record false := by
  unfold updateInPlace insertedRow
  rw [← hok.parent, ← hok.name, hpath]
  congr 1
  show _ = if _ then _ else _
  split_ifs with hchanged hkept hkept
  · exact absurd hkept.2.2.2.2 (not_and_or.2 hchanged)
  · rfl
  · rfl
  · exact absurd ⟨rfl, hpersistent, hdir, rfl, not_or.1 hchanged |>.imp not_not.1 not_not.1⟩
      hkept

theorem insertRow_fresh {key : Text} {record : DirectoryEntryRecord} {transient : Bool}
    (hin : (c.rows.get? key).filter (fun old => !transient && old.persistent &&
      old.isDir = record.isDir && record.path = old.path) = none)
    {reuse : Bool} {row : CatalogRow Anchor Observation} {m : ScopeCatalog Anchor Observation}
    (htaken : takeOld T (c.internParent (parentOf record.path)) key (newRow record transient) =
      (reuse, row, m)) :
    ScopeCatalog.insertRow T c key record transient =
      if reuse then { m with rows := m.rows.set key row }
      else ScopeCatalog.addRow T m key record.path row := by
  unfold ScopeCatalog.insertRow ScopeCatalog.addRow
  rw [hin]
  dsimp only
  rw [htaken]
  cases reuse <;> simp

theorem insertedRow_fresh {old : CatalogRow Anchor Observation} {record : DirectoryEntryRecord}
    {transient : Bool}
    (hin : (some old).filter (fun old => !transient && old.persistent &&
      old.isDir = record.isDir && record.path = old.path) = none) :
    insertedRow (some old) record transient =
      { (newRow record transient : CatalogRow Anchor Observation) with
        observation := old.observation } := by
  unfold insertedRow newRow
  congr 1
  show (if _ then _ else _) = none
  split_ifs with hkept
  · obtain ⟨htransient, hpersistent, hdir, hpath, -⟩ := hkept
    rw [Option.filter_eq_none_iff] at hin
    have hcond := hin old rfl
    simp [htransient, hpersistent, hdir, hpath] at hcond
  · rfl

theorem Inv.insertRow (hdot : ∀ u, T.unit u = '.'.toNat.toUInt16 → u = '.'.toNat.toUInt16)
    (h : Inv T [] [] c) (record : DirectoryEntryRecord) (transient : Bool) :
    Inv T [] [] (insertRow T c (T.pathKey record.path) record transient) ∧
      Replaces c.rows (insertRow T c (T.pathKey record.path) record transient).rows
        (T.pathKey record.path)
        (insertedRow (c.rows.get? (T.pathKey record.path)) record transient) := by
  generalize hkey : T.pathKey record.path = key
  obtain ⟨hpath, hrow⟩ := insertedRow_ok (c.rows.get? key) record transient
  have hpathKey : T.pathKey (insertedRow (c.rows.get? key) record transient).path = key := by
    rw [hpath, hkey]
  cases hin : (c.rows.get? key).filter fun old => !transient && old.persistent &&
      old.isDir = record.isDir && record.path = old.path with
  | some old =>
    unfold ScopeCatalog.insertRow
    rw [hin]
    obtain ⟨hget, hcond⟩ := Option.filter_eq_some_iff.1 hin
    simp only [Bool.and_eq_true, Bool.not_eq_true', decide_eq_true_eq] at hcond
    obtain ⟨⟨⟨htransient, hpersistent⟩, hdir⟩, hsame⟩ := hcond
    have hold := (h.rows key old hget).2
    rw [hget, htransient, ← updateInPlace_eq hold hpersistent hdir hsame]
    exact ⟨h.replace hget rfl rfl hdir.symm hpersistent.symm, replaces_set _ _ _⟩
  | none =>
    have hintern : Inv T [] [(insertedRow (c.rows.get? key) record transient).parent]
      (c.internParent (parentOf record.path)) := h.intern (parentOf record.path)
    cases hget : c.rows.get? key with
    | none =>
      rw [hget] at hpath hrow hpathKey hintern
      have htaken : takeOld T (c.internParent (parentOf record.path)) key (newRow record transient) =
          (false, insertedRow none record transient, c.internParent (parentOf record.path)) := by
        unfold takeOld
        rw [show (c.internParent (parentOf record.path)).rows.get? key = none from hget]
        rfl
      obtain ⟨hinv, hrows⟩ := hintern.addRow hget hpathKey hrow
      rw [hpath] at hinv hrows
      rw [insertRow_fresh hin htaken, if_neg Bool.false_ne_true, hrows]
      exact ⟨hinv, replaces_set c.rows _ _⟩
    | some old =>
      rw [hget] at hpath hrow hpathKey hintern
      have hanchor := insertedRow_fresh (hget ▸ hin)
      cases hreuse : (old.persistent && (insertedRow (some old) record transient).persistent &&
          old.isDir = (insertedRow (some old) record transient).isDir) with
      | true =>
        have htaken : takeOld T (c.internParent (parentOf record.path)) key
            (newRow record transient) = (true, insertedRow (some old) record transient,
              releaseParent { c.internParent (parentOf record.path) with
                rows := c.rows.erase key } old) := by
          unfold takeOld
          rw [show (c.internParent (parentOf record.path)).rows.get? key = some old from hget]
          dsimp only
          rw [← hanchor, hreuse]
          rfl
        simp only [Bool.and_eq_true, decide_eq_true_eq] at hreuse
        obtain ⟨⟨hpersistent, hpersistent'⟩, hdir⟩ := hreuse
        obtain ⟨hrows, hbuckets, hlen⟩ := releaseParent_rest
          { c.internParent (parentOf record.path) with rows := c.rows.erase key } old
        rw [insertRow_fresh hin htaken, if_pos rfl, hrows]
        have hreplaces := replaces_erase_set c.rows key (insertedRow (some old) record transient)
        refine ⟨hintern.reuseRow hget hpathKey hrow (hpersistent'.trans hpersistent.symm) hdir.symm
          ?_ hreplaces hbuckets hlen ?_, hreplaces⟩
        · exact catalogStem_eq T hdot (hpathKey.trans (h.rows key old hget).1.symm)
        · apply releaseParent_congr
          rfl
      | false =>
        obtain ⟨hinv, hrows, hclean⟩ := hintern.removeIndexes hget none rfl
        rw [hclean rfl] at hinv
        generalize hm : (ScopeCatalog.removeIndexes T { c.internParent (parentOf record.path) with
          rows := (c.internParent (parentOf record.path)).rows.erase key } key old none).2 = m
          at hinv hrows
        have htaken : takeOld T (c.internParent (parentOf record.path)) key
            (newRow record transient) = (false, insertedRow (some old) record transient, m) := by
          unfold takeOld
          rw [show (c.internParent (parentOf record.path)).rows.get? key = some old from hget]
          dsimp only
          rw [← hanchor, hreuse, ← hm]
          rfl
        have hnone : m.rows.get? key = none := by rw [hrows, Dict.get?_erase_self]
        obtain ⟨hinv', hrows'⟩ := hinv.addRow hnone hpathKey hrow
        rw [hpath] at hinv' hrows'
        rw [insertRow_fresh hin htaken, if_neg Bool.false_ne_true, hrows', hrows]
        exact ⟨hinv', replaces_erase_set c.rows _ _⟩

/-! ## Runs -/

theorem Inv.call (hdot : ∀ u, T.unit u = '.'.toNat.toUInt16 → u = '.'.toNat.toUInt16)
    (h : Inv T [] [] c) (call : Call Anchor Observation) : Inv T [] [] (c.call T call) := by
  cases call with
  | insert record => exact (h.insertRow hdot record false).1
  | insertKey record => exact (h.insertRow hdot record false).1
  | insertTransient record => exact (h.insertRow hdot record true).1
  | remove key => exact (h.removeMany [key]).1
  | removeMany keys => exact (h.removeMany keys).1
  | remember key cheapAnchor observation =>
    unfold ScopeCatalog.call
    dsimp only
    cases hget : c.rows.get? key with
    | none => exact h
    | some row => exact h.replace hget rfl rfl rfl rfl

theorem inv_run (hdot : ∀ u, T.unit u = '.'.toNat.toUInt16 → u = '.'.toNat.toUInt16)
    (calls : List (Call Anchor Observation)) : Inv T [] [] (run T calls) := by
  have hcalls : ∀ c : ScopeCatalog Anchor Observation, Inv T [] [] c →
      Inv T [] [] (calls.foldl (ScopeCatalog.call T) c) := by
    induction calls with
    | nil => exact fun c h => h
    | cons call calls ih => exact fun c h => ih _ (h.call hdot call)
  exact hcalls {} inv_empty

/-! ## A batch, and its keys one by one -/

theorem Inv.removeEach (h : Inv T [] [] c) (keys : List Text) :
    Inv T [] [] (keys.foldl (ScopeCatalog.remove T) c) ∧
      (keys.foldl (ScopeCatalog.remove T) c).rows = keys.foldl Dict.erase c.rows := by
  induction keys generalizing c with
  | nil => exact ⟨h, rfl⟩
  | cons key keys ih =>
    obtain ⟨hinv, hrows⟩ := h.removeMany [key]
    obtain ⟨hinv', hrows'⟩ := ih hinv
    rw [hrows] at hrows'
    exact ⟨hinv', hrows'⟩

/-- Catalogs that differ in the order inside the buckets only. -/
structure SameCatalog (c c' : ScopeCatalog Anchor Observation) : Prop where
  rows : c.rows = c'.rows
  buckets : ∀ stem, (c.buckets.get? stem).isSome = (c'.buckets.get? stem).isSome
  keys : ∀ stem, (c.keysOf stem).Perm (c'.keysOf stem)
  parents : ∀ parent, c.parents.get? parent = c'.parents.get? parent
  persistent : c.persistentLen = c'.persistentLen

theorem isSome_bucket (hne : c.NoEmptyBucket) (stem : Text) :
    (c.buckets.get? stem).isSome = true ↔ c.keysOf stem ≠ [] := by
  unfold keysOf
  cases hget : c.buckets.get? stem with
  | none => simp
  | some bucket => simpa using hne stem bucket hget

/-- The rows decide everything else. -/
theorem Inv.same (h : Inv T [] [] c) (h' : Inv T [] [] c') (hrows : c.rows = c'.rows) :
    SameCatalog c c' := by
  have hkeys : ∀ stem, (c.keysOf stem).Perm (c'.keysOf stem) := by
    intro stem
    refine (List.perm_ext_iff_of_nodup (h.nodup stem) (h'.nodup stem)).2 fun key => ?_
    rw [h.mem_keysOf, h'.mem_keysOf]
    unfold Indexed
    rw [hrows]
  refine ⟨hrows, fun stem => ?_, hkeys, fun parent => ?_, ?_⟩
  · rw [Bool.eq_iff_iff, isSome_bucket h.nonempty, isSome_bucket h'.nonempty]
    exact not_congr ⟨fun hnil => (hnil ▸ hkeys stem).nil_eq.symm, fun hnil =>
      (hnil ▸ hkeys stem).eq_nil⟩
  · rw [h.parents, h'.parents]
    unfold references
    rw [hrows]
  · rw [h.persistent, h'.persistent, hrows]

theorem Inv.isSome_parent (h : Inv T [] [] c) (parent : Text) :
    (c.parents.get? parent).isSome = true ↔
      ∃ key row, c.rows.get? key = some row ∧ row.parent = parent := by
  have hzero : c.references parent = 0 ↔ ∀ key row, c.rows.get? key = some row →
      row.parent ≠ parent := by
    refine Dict.count_eq_zero.trans ?_
    simp only [decide_eq_false_iff_not, ne_eq]
  rw [h.parents, List.count_nil, Nat.add_zero]
  cases hcount : c.references parent with
  | zero =>
    refine ⟨fun hsome => absurd hsome Bool.false_ne_true, ?_⟩
    rintro ⟨key, row, hget, hparent⟩
    exact absurd hparent (hzero.1 hcount key row hget)
  | succ n =>
    refine ⟨fun _ => by_contra fun hnone => ?_, fun _ => rfl⟩
    have := hzero.2 fun key row hget hparent => hnone ⟨key, row, hget, hparent⟩
    omega

theorem insertedRow_size (old : Option (CatalogRow Anchor Observation))
    (record : DirectoryEntryRecord) (transient : Bool) :
    (insertedRow old record transient).size? = record.size ∧
      (insertedRow old record transient).mtimeNs? = record.mtimeNs := by
  unfold CatalogRow.size? CatalogRow.mtimeNs? insertedRow DirectoryEntryRecord.flags
  dsimp only
  constructor
  · cases record.size <;> rfl
  · cases record.mtimeNs <;> rfl

/-! ## The catalog -/

/-- In any run: the number of persistent rows; the buckets, as a map from stems to the keys of
persistent files; the parents, which are those of rows; what a replaced row keeps; and batches. -/
theorem catalog_spec (hdot : ∀ u, T.unit u = '.'.toNat.toUInt16 → u = '.'.toNat.toUInt16)
    (calls : List (Call Anchor Observation)) :
    (run T calls).persistentLen = (run T calls).rows.count (fun _ row => row.persistent) ∧
    (∀ stem bucket, (run T calls).buckets.get? stem = some bucket →
      bucket.iter ≠ [] ∧ bucket.iter.Nodup) ∧
    (∀ stem key, (∃ bucket, (run T calls).buckets.get? stem = some bucket ∧ key ∈ bucket.iter) ↔
      ∃ row, (run T calls).rows.get? key = some row ∧ row.persistent = true ∧ row.isDir = false ∧
        catalogStem T row.path = stem) ∧
    (∀ parent, ((run T calls).parents.get? parent).isSome = true ↔
      ∃ key row, (run T calls).rows.get? key = some row ∧ row.parent = parent) ∧
    (∀ record transient old, (run T calls).rows.get? (T.pathKey record.path) = some old →
      ∃ row, (insertRow T (run T calls) (T.pathKey record.path) record transient).rows.get?
          (T.pathKey record.path) = some row ∧
        row.path = record.path ∧ row.isDir = record.isDir ∧ row.size? = record.size ∧
        row.mtimeNs? = record.mtimeNs ∧ row.persistent = !transient ∧
        row.observation = old.observation ∧
        row.cheapAnchor =
          if old.persistent = true ∧ row.persistent = true ∧ old.isDir = row.isDir ∧
            old.path = row.path ∧ old.size? = row.size? ∧ old.mtimeNs? = row.mtimeNs? then
            old.cheapAnchor
          else none) ∧
    ∀ keys, SameCatalog (removeMany T (run T calls) keys)
      (keys.foldl (remove T) (run T calls)) := by
  have h := inv_run hdot calls
  generalize run T calls = c at h
  refine ⟨h.persistent, fun stem bucket hget => ?_, fun stem key => ?_, fun parent => ?_,
    fun record transient old hget => ?_, fun keys => ?_⟩
  · have hkeys : c.keysOf stem = bucket.iter := by rw [keysOf, hget]; rfl
    exact ⟨h.nonempty stem bucket hget, hkeys ▸ h.nodup stem⟩
  · rw [show (∃ row, _) = c.Indexed T stem key from rfl, ← h.mem_keysOf, keysOf]
    cases c.buckets.get? stem <;> simp
  · exact h.isSome_parent parent
  · obtain ⟨hsize, hmtime⟩ := insertedRow_size (some old) record transient
    have hpath := (insertedRow_ok (some old) record transient).1
    refine ⟨insertedRow (some old) record transient, ?_, hpath, rfl, hsize, hmtime, rfl, rfl, ?_⟩
    · rw [(h.insertRow hdot record transient).2.1, if_pos rfl, hget]
    · rw [hpath, hsize, hmtime]
      show (if _ then _ else _) = _
      have hpersistent : (insertedRow (some old) record transient).persistent = true ↔
          transient = false := by
        show (!transient) = true ↔ _
        cases transient <;> simp
      apply ite_congr ?_ (fun _ => rfl) fun _ => rfl
      rw [hpersistent]
      exact propext and_left_comm
  · obtain ⟨hinv, hrows⟩ := h.removeMany keys
    obtain ⟨hinv', hrows'⟩ := h.removeEach keys
    exact hinv.same hinv' (hrows.trans hrows'.symm)

theorem asciiOnly_dot (u : UInt16) (h : DowncaseTable.asciiOnly.unit u = '.'.toNat.toUInt16) :
    u = '.'.toNat.toUInt16 := by
  unfold DowncaseTable.asciiOnly at h
  dsimp only at h
  split_ifs at h
  · rw [← UInt16.toNat_inj, UInt16.toNat_add] at h
    simp at h
    omega
  · exact h

def firstVolume : DirectoryEntryRecord where
  path := "C:\\In\\a.part1.rar".toList
  isDir := false
  size := some 7
  mtimeNs := none
  entry := ⟨by decide, by decide, by decide, by decide, by decide⟩

/-- The volume is inserted, becomes transient, and is persistent again. -/
def volumeCalls : List (Call Unit Unit) :=
  [.insert firstVolume, .insertTransient firstVolume, .insert firstVolume]

theorem catalog_spec_volumeCalls : (run DowncaseTable.asciiOnly volumeCalls).persistentLen = 1 := by
  rw [(catalog_spec asciiOnly_dot volumeCalls).1]
  decide

end Sunpack.Scan.ScopeCatalog
