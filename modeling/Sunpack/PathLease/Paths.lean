import Sunpack.PathKeys
import Sunpack.Lib.Dict

/-!
# Lease paths

`_LeasePath` and its snapshots (`engine.py`). What a path names is asked of the file system at every
snapshot and may be different at the next one. A file system is any map; the functions on path texts
(`PathNames`) are any functions.
-/

namespace Sunpack.PathLease

open Lib

structure PathNames where
  /-- `os.path.abspath(os.path.normpath(path))`. -/
  normalized : Text → Text
  pathKey : Text → Text
  /-- The keys of `Path(key).parents`. -/
  parents : Text → List Text

structure StatResult where
  device : Nat
  inode : Nat
  size : Nat
  modified : Nat
  isDir : Bool

/-- What `os.stat` answers. -/
inductive StatOutcome
  | found (result : StatResult)
  | notFound
  | failed

/-- `os.stat` and `resolved_path_key`. The key of a normalized path is never empty. -/
structure FileSystem where
  stat : Text → StatOutcome
  resolvedKey : Text → Text
  resolved_ne : ∀ path, resolvedKey path ≠ []

structure VersionRow where
  key : Text
  device : Nat
  inode : Nat
  size : Nat
  modified : Nat
  deriving DecidableEq

structure LeasePath (names : PathNames) where
  path : Text
  key : Text
  resolvedKey : Text
  ancestorKeys : List Text
  isDir : Bool
  versionRow : Option VersionRow
  missing : Bool
  resolved_ne : resolvedKey ≠ []
  ancestors : ancestorKeys = names.parents resolvedKey

variable {names : PathNames}

/-- `_snapshot_lease_path`, of a normalized path. -/
def snapshotLeasePath (names : PathNames) (fs : FileSystem) (normalized : Text) :
    LeasePath names :=
  let key := names.pathKey normalized
  let outcome := fs.stat normalized
  { path := normalized
    key := key
    resolvedKey := fs.resolvedKey normalized
    ancestorKeys := names.parents (fs.resolvedKey normalized)
    isDir := match outcome with
      | .found result => result.isDir
      | _ => false
    versionRow := match outcome with
      | .found result => some ⟨key, result.device, result.inode, result.size, result.modified⟩
      | _ => none
    missing := match outcome with
      | .notFound => true
      | _ => false
    resolved_ne := fs.resolved_ne normalized
    ancestors := rfl }

/-- `_lease_ownership_version`: nothing if one path could not be examined. -/
def leaseOwnershipVersion (paths : List (LeasePath names)) : List VersionRow :=
  match paths.mapM (·.versionRow) with
  | none => []
  | some rows => rows.insertionSort fun a b => a.key ≤ b.key

/-! ## Snapshots of several paths -/

/-- One path of `_snapshot_paths`. A leased path that exists is not examined again. -/
def snapshotInto (entries : Dict Text (LeasePath names)) (fs : FileSystem) (refresh : Bool)
    (prepared : Dict Text (LeasePath names)) (raw : Text) : Dict Text (LeasePath names) :=
  if raw = [] then prepared
  else
    let normalized := names.normalized raw
    let key := names.pathKey normalized
    if (prepared.get? key).isSome then prepared
    else
      let fresh := snapshotLeasePath names fs normalized
      match entries.get? key with
      | none => prepared.set key fresh
      | some existing =>
        if refresh || existing.missing then prepared.set key fresh
        else prepared.set key { existing with path := normalized, key := key }

/-- `_snapshot_paths`. -/
def snapshotPaths (entries : Dict Text (LeasePath names)) (fs : FileSystem) (refresh : Bool)
    (paths : List Text) : List (LeasePath names) :=
  (paths.foldl (snapshotInto entries fs refresh) ∅).values

theorem snapshotInto_keyed {entries : Dict Text (LeasePath names)} {fs : FileSystem}
    {refresh : Bool} {prepared : Dict Text (LeasePath names)} (raw : Text)
    (h : prepared.values.map (·.key) = prepared.keys) :
    (snapshotInto entries fs refresh prepared raw).values.map (·.key) =
      (snapshotInto entries fs refresh prepared raw).keys := by
  have hset (p : LeasePath names) (hnone : prepared.get? p.key = none) :
      (prepared.set p.key p).values.map (·.key) = (prepared.set p.key p).keys := by
    rw [Dict.values_set_new hnone, Dict.keys_set_new hnone, List.map_append, h]
    rfl
  unfold snapshotInto
  simp only
  split_ifs with hraw hsome
  · exact h
  · exact h
  · have hnone : prepared.get? (names.pathKey (names.normalized raw)) = none := by
      rwa [Option.isSome_iff_ne_none, ne_eq, not_not] at hsome
    split
    · exact hset (snapshotLeasePath names fs (names.normalized raw)) hnone
    · rename_i existing _
      split_ifs
      · exact hset (snapshotLeasePath names fs (names.normalized raw)) hnone
      · let p : LeasePath names :=
          { existing with
            path := names.normalized raw, key := names.pathKey (names.normalized raw) }
        exact hset p hnone

theorem snapshotFold_keyed {entries : Dict Text (LeasePath names)} {fs : FileSystem}
    {refresh : Bool} (paths : List Text) {prepared : Dict Text (LeasePath names)}
    (h : prepared.values.map (·.key) = prepared.keys) :
    (paths.foldl (snapshotInto entries fs refresh) prepared).values.map (·.key) =
      (paths.foldl (snapshotInto entries fs refresh) prepared).keys := by
  induction paths generalizing prepared with
  | nil => exact h
  | cons raw paths ih => exact ih (snapshotInto_keyed raw h)

/-- A snapshot has one path for each key. -/
theorem snapshotPaths_nodup (entries : Dict Text (LeasePath names)) (fs : FileSystem)
    (refresh : Bool) (paths : List Text) :
    ((snapshotPaths entries fs refresh paths).map (·.key)).Nodup := by
  rw [snapshotPaths, snapshotFold_keyed paths rfl]
  exact Dict.nodup _

/-! ## Conflicts -/

/-- The keys at which a path stands in the index of directories. -/
def LeasePath.directoryKeys (p : LeasePath names) : List Text :=
  if p.isDir then [p.resolvedKey] else []

def LeasePath.prefixes (p : LeasePath names) : List Text := p.resolvedKey :: p.ancestorKeys

/-- One file under two names, or one path is a directory that contains the other. -/
def Conflict (p q : LeasePath names) : Prop :=
  p.key = q.key ∨ p.resolvedKey = q.resolvedKey ∨
    (p.isDir = true ∧ p.resolvedKey ∈ q.ancestorKeys) ∨
    (q.isDir = true ∧ q.resolvedKey ∈ p.ancestorKeys)

instance (p q : LeasePath names) : Decidable (Conflict p q) :=
  inferInstanceAs (Decidable (_ ∨ _ ∨ _ ∨ _))

/-- A leased path stands in the way of a candidate. -/
def Blocks (leased candidate : LeasePath names) : Prop :=
  leased.key = candidate.key ∨ (∃ k ∈ candidate.prefixes, k ∈ leased.directoryKeys) ∨
    candidate.resolvedKey ∈ leased.prefixes

/-- The leased path stands for the snapshot: it has its names, and is a directory if that is. -/
structure Covers (leased snapshot : LeasePath names) : Prop where
  key : leased.key = snapshot.key
  resolved : leased.resolvedKey = snapshot.resolvedKey
  isDir : snapshot.isDir = true → leased.isDir = true

variable {p q e f : LeasePath names}

theorem Conflict.symm (h : Conflict p q) : Conflict q p := by
  rcases h with hkey | hresolved | hdir | hdir
  · exact .inl hkey.symm
  · exact .inr (.inl hresolved.symm)
  · exact .inr (.inr (.inr hdir))
  · exact .inr (.inr (.inl hdir))

theorem Covers.refl (p : LeasePath names) : Covers p p := ⟨rfl, rfl, id⟩

theorem Covers.ancestorKeys (h : Covers e p) : e.ancestorKeys = p.ancestorKeys := by
  rw [e.ancestors, p.ancestors, h.resolved]

theorem Covers.conflict (h : Covers e p) (hconflict : Conflict p q) : Conflict e q := by
  rcases hconflict with hkey | hresolved | ⟨hdir, hmem⟩ | ⟨hdir, hmem⟩
  · exact .inl (h.key.trans hkey)
  · exact .inr (.inl (h.resolved.trans hresolved))
  · exact .inr (.inr (.inl ⟨h.isDir hdir, h.resolved ▸ hmem⟩))
  · exact .inr (.inr (.inr ⟨hdir, h.ancestorKeys ▸ hmem⟩))

/-- Two snapshots conflict only if what stands for them does. -/
theorem Covers.conflict_both (hp : Covers e p) (hq : Covers f q) (hconflict : Conflict p q) :
    Conflict e f :=
  (hq.conflict (hp.conflict hconflict).symm).symm

theorem mem_directoryKeys {k : Text} :
    k ∈ p.directoryKeys ↔ p.isDir = true ∧ k = p.resolvedKey := by
  unfold LeasePath.directoryKeys
  split_ifs with h <;> simp [h]

theorem Conflict.blocks (h : Conflict e p) : Blocks e p := by
  rcases h with hkey | hresolved | ⟨hdir, hmem⟩ | ⟨hdir, hmem⟩
  · exact .inl hkey
  · exact .inr (.inr (hresolved ▸ List.mem_cons_self))
  · exact .inr (.inl ⟨e.resolvedKey, List.mem_cons_of_mem _ hmem, mem_directoryKeys.2 ⟨hdir, rfl⟩⟩)
  · exact .inr (.inr (List.mem_cons_of_mem _ hmem))

end Sunpack.PathLease
