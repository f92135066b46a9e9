import Mathlib.Tactic
import Sunpack.PathKeys
import Sunpack.Lib.Dict

/-!
# The scope catalog

`scan/catalog.rs`: the rows of a watched scope by their keys, with three things kept beside them: how
many rows are persistent, which persistent files share a stem, and the parents, which the rows share
through reference counts. What the rows remember between scans, an anchor and an observation, are
types here.

The order of the rows is not used here, so they are a dictionary.
-/

namespace Sunpack.Scan

open Lib

def isSeparator (c : Char) : Bool := c = '\\' || c = '/'

/-- What `path.rfind(['\\', '/'])` splits off. -/
def parentOf (path : Text) : Text := path.rdropWhile fun c => !isSeparator c

def nameOf (path : Text) : Text := path.rtakeWhile fun c => !isSeparator c

/-- The path of an entry: it is absolute, and its last component is the name of a file or directory. -/
structure IsEntryPath (path : Text) : Prop where
  parent : parentOf path ≠ []
  name : nameOf path ≠ []
  current : nameOf path ≠ ['.']
  above : nameOf path ≠ ['.', '.']
  stream : ':' ∉ nameOf path

structure DirectoryEntryRecord where
  path : Text
  isDir : Bool
  size : Option Nat
  mtimeNs : Option Nat
  entry : IsEntryPath path

/-- The bits of `flags`. -/
structure Flags where
  directory : Bool
  hasSize : Bool
  hasMtime : Bool
  transient : Bool
deriving DecidableEq

def DirectoryEntryRecord.flags (record : DirectoryEntryRecord) (transient : Bool) : Flags :=
  ⟨record.isDir, record.size.isSome, record.mtimeNs.isSome, transient⟩

structure CatalogRow (Anchor Observation : Type) where
  parent : Text
  name : Text
  size : Nat
  mtimeNs : Nat
  flags : Flags
  cheapAnchor : Option Anchor
  observation : Option Observation

namespace CatalogRow

variable {Anchor Observation : Type}

def path (row : CatalogRow Anchor Observation) : Text := row.parent ++ row.name

def isDir (row : CatalogRow Anchor Observation) : Bool := row.flags.directory

def persistent (row : CatalogRow Anchor Observation) : Bool := !row.flags.transient

def size? (row : CatalogRow Anchor Observation) : Option Nat :=
  if row.flags.hasSize then some row.size else none

def mtimeNs? (row : CatalogRow Anchor Observation) : Option Nat :=
  if row.flags.hasMtime then some row.mtimeNs else none

end CatalogRow

/-! ## Buckets -/

inductive CatalogBucket
  | one (key : Text)
  | many (keys : List Text)

namespace CatalogBucket

def iter : CatalogBucket → List Text
  | .one key => [key]
  | .many keys => keys

def push : CatalogBucket → Text → CatalogBucket
  | .one first, key => .many [first, key]
  | .many keys, key => .many (keys ++ [key])

/-- Whether the bucket is empty afterwards, and what it is then. -/
def retain (keep : Text → Bool) : CatalogBucket → Bool × CatalogBucket
  | .one first => (!keep first, .one first)
  | .many keys =>
    match keys.filter keep with
    | [] => (true, .many [])
    | [key] => (false, .one key)
    | keys => (false, .many keys)

def isMany : CatalogBucket → Bool
  | .one _ => false
  | .many _ => true

end CatalogBucket

/-! ## The catalog -/

/-- `parents` has the strong count of each interned parent: the set holds one reference, and each row
of the parent another. -/
structure ScopeCatalog (Anchor Observation : Type) where
  rows : Dict Text (CatalogRow Anchor Observation) := ∅
  buckets : Dict Text CatalogBucket := ∅
  parents : Dict Text Nat := ∅
  persistentLen : Nat := 0

/-- `first_dot_stem`. -/
def firstDotStem (name : Text) : Text := name.takeWhile (· ≠ '.')

/-- The file name of an entry is its last component. -/
def catalogStem (T : DowncaseTable) (path : Text) : Text := T.caseKey (firstDotStem (nameOf path))

namespace ScopeCatalog

variable {Anchor Observation : Type} (T : DowncaseTable)

/-- A reference to the interned parent, for a new row. -/
def internParent (c : ScopeCatalog Anchor Observation) (parent : Text) :
    ScopeCatalog Anchor Observation :=
  { c with parents := c.parents.set parent (((c.parents.get? parent).getD 1) + 1) }

/-- `release_parent`, and then the row drops its reference. -/
def releaseParent (c : ScopeCatalog Anchor Observation) (row : CatalogRow Anchor Observation) :
    ScopeCatalog Anchor Observation :=
  match c.parents.get? row.parent with
  | none => c
  | some count =>
    { c with
      parents := if count = 2 then c.parents.erase row.parent
        else c.parents.set row.parent (count - 1) }

/-- `bucket.retain`, and an empty bucket goes. -/
def retainBucket (c : ScopeCatalog Anchor Observation) (stem : Text) (keep : Text → Bool) :
    ScopeCatalog Anchor Observation :=
  match c.buckets.get? stem with
  | none => c
  | some bucket =>
    let result := bucket.retain keep
    { c with
      buckets := if result.1 then c.buckets.erase stem else c.buckets.set stem result.2 }

def pushBucket (c : ScopeCatalog Anchor Observation) (stem key : Text) :
    ScopeCatalog Anchor Observation :=
  { c with
    buckets := match c.buckets.get? stem with
      | some bucket => c.buckets.set stem (bucket.push key)
      | none => c.buckets.set stem (.one key) }

/-- The stems that are dirty afterwards, and the catalog; a stem with several keys is cleaned later,
if there is a set for it. -/
def removeIndexes (c : ScopeCatalog Anchor Observation) (key : Text)
    (row : CatalogRow Anchor Observation) (dirty : Option (List Text)) :
    List Text × ScopeCatalog Anchor Observation :=
  let stems := dirty.getD []
  if row.persistent then
    let c := { c with persistentLen := c.persistentLen - 1 }
    if row.isDir then (stems, c.releaseParent row)
    else
      let stem := catalogStem T row.name
      if dirty.isSome && (c.buckets.get? stem).any (·.isMany) then
        (if stem ∈ stems then stems else stems ++ [stem], c.releaseParent row)
      else (stems, (c.retainBucket stem (· ≠ key)).releaseParent row)
  else (stems, c.releaseParent row)

/-- The row stays, with the size and the time of the record. -/
def updateInPlace (old : CatalogRow Anchor Observation) (record : DirectoryEntryRecord) :
    CatalogRow Anchor Observation :=
  { old with
    cheapAnchor :=
      if old.size? ≠ record.size ∨ old.mtimeNs? ≠ record.mtimeNs then none else old.cheapAnchor
    size := record.size.getD 0
    mtimeNs := record.mtimeNs.getD 0
    flags := record.flags false }

def newRow (record : DirectoryEntryRecord) (transient : Bool) : CatalogRow Anchor Observation where
  parent := parentOf record.path
  name := nameOf record.path
  size := record.size.getD 0
  mtimeNs := record.mtimeNs.getD 0
  flags := record.flags transient
  cheapAnchor := none
  observation := none

/-- The old row of the key goes; the new one takes its observation, and perhaps its places in the
indexes. -/
def takeOld (c : ScopeCatalog Anchor Observation) (key : Text)
    (row : CatalogRow Anchor Observation) :
    Bool × CatalogRow Anchor Observation × ScopeCatalog Anchor Observation :=
  match c.rows.get? key with
  | none => (false, row, c)
  | some old =>
    let row := { row with observation := old.observation }
    let c := { c with rows := c.rows.erase key }
    let reuseIndexes := old.persistent && row.persistent && old.isDir = row.isDir
    (reuseIndexes, row,
      if reuseIndexes then c.releaseParent old else (removeIndexes T c key old none).2)

/-- A new persistent row, or one whose places in the indexes are gone, gets them. -/
def indexRow (c : ScopeCatalog Anchor Observation) (key path : Text)
    (row : CatalogRow Anchor Observation) : ScopeCatalog Anchor Observation :=
  let c := { c with persistentLen := c.persistentLen + 1 }
  if row.isDir then c else c.pushBucket (catalogStem T path) key

def insertRow (c : ScopeCatalog Anchor Observation) (key : Text) (record : DirectoryEntryRecord)
    (transient : Bool) : ScopeCatalog Anchor Observation :=
  match (c.rows.get? key).filter fun old => !transient && old.persistent &&
      old.isDir = record.isDir && record.path = old.path with
  | some old => { c with rows := c.rows.set key (updateInPlace old record) }
  | none =>
    let taken := takeOld T (c.internParent (parentOf record.path)) key (newRow record transient)
    let c :=
      if taken.2.1.persistent && !taken.1 then indexRow T taken.2.2 key record.path taken.2.1
      else taken.2.2
    { c with rows := c.rows.set key taken.2.1 }

def insertKey (c : ScopeCatalog Anchor Observation) (key : Text) (record : DirectoryEntryRecord) :
    ScopeCatalog Anchor Observation := insertRow T c key record false

def insert (c : ScopeCatalog Anchor Observation) (record : DirectoryEntryRecord) :
    ScopeCatalog Anchor Observation := insertKey T c (T.pathKey record.path) record

def insertTransient (c : ScopeCatalog Anchor Observation) (key : Text)
    (record : DirectoryEntryRecord) : ScopeCatalog Anchor Observation :=
  insertRow T c key record true

/-- One key of `remove_many`, with the stems to clean. -/
def removeRow (state : List Text × ScopeCatalog Anchor Observation) (key : Text) :
    List Text × ScopeCatalog Anchor Observation :=
  match state.2.rows.get? key with
  | none => state
  | some row =>
    removeIndexes T { state.2 with rows := state.2.rows.erase key } key row (some state.1)

def cleanStem (c : ScopeCatalog Anchor Observation) (stem : Text) :
    ScopeCatalog Anchor Observation := c.retainBucket stem fun key => (c.rows.get? key).isSome

def removeMany (c : ScopeCatalog Anchor Observation) (keys : List Text) :
    ScopeCatalog Anchor Observation :=
  let removed := keys.foldl (removeRow T) ([], c)
  removed.1.foldl cleanStem removed.2

def remove (c : ScopeCatalog Anchor Observation) (key : Text) : ScopeCatalog Anchor Observation :=
  removeMany T c [key]

end ScopeCatalog

/-! ## Calls -/

inductive Call (Anchor Observation : Type)
  | insert (record : DirectoryEntryRecord)
  | insertKey (record : DirectoryEntryRecord)
  | insertTransient (record : DirectoryEntryRecord)
  | remove (key : Text)
  | removeMany (keys : List Text)
  /-- A scan or an event sets what a row remembers. -/
  | remember (key : Text) (cheapAnchor : Option Anchor) (observation : Option Observation)

variable {Anchor Observation : Type}

/-- The keys of insertions are those of their paths. -/
def ScopeCatalog.call (T : DowncaseTable) (c : ScopeCatalog Anchor Observation) :
    Call Anchor Observation → ScopeCatalog Anchor Observation
  | .insert record => c.insert T record
  | .insertKey record => c.insertKey T (T.pathKey record.path) record
  | .insertTransient record => c.insertTransient T (T.pathKey record.path) record
  | .remove key => c.remove T key
  | .removeMany keys => c.removeMany T keys
  | .remember key cheapAnchor observation =>
    match c.rows.get? key with
    | none => c
    | some row =>
      { c with
        rows := c.rows.set key { row with cheapAnchor := cheapAnchor, observation := observation } }

def ScopeCatalog.run (T : DowncaseTable) (calls : List (Call Anchor Observation)) :
    ScopeCatalog Anchor Observation := calls.foldl (ScopeCatalog.call T) {}

end Sunpack.Scan
