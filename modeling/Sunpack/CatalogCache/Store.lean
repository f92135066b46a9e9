import Sunpack.CatalogCache.Rows
import Sunpack.Wal.Recovery
import Sunpack.Wal.Snapshot
import Sunpack.Lib.BigEndian

/-!
# The catalog store

`scan/catalog_store.rs`: the catalogs of all scopes on disk, as a snapshot and a WAL of deltas. The disk
is the bytes of the two files. What MessagePack makes of deltas and snapshots is a parameter, and so are
the CRC and the case table.
-/

namespace Sunpack.CatalogCache

open Lib Scan Wal

abbrev Bytes := List UInt8

structure Stamp where
  identity : Text
  depth : Option Nat
  excluded : List Text
  cursor : Option (Text × Nat × Int)
deriving DecidableEq

/-- A delta; the rows of a `DeltaView` are written as their records. -/
structure Delta where
  scope : Text
  removed : List Text
  rows : List DirectoryEntryRecord
  stamp : Option Stamp

def BATCH_BYTES : Nat := 256 * 1024
def BATCH_DELTAS : Nat := 64

/-- The rows of a scope, with the number that announces them. -/
abbrev ScopeRows := Text × Nat × List RowFields

structure Snapshot where
  stamps : Dict Text Stamp
  rows : List (Text × List DirectoryEntryRecord)

/-- The encodings of `rmp_serde`. -/
structure Codec where
  encodeDelta : Delta → Except IoError Bytes
  decodeDeltas : Bytes → Except IoError (List Delta)
  encodeSnapshot : Dict Text Stamp → List ScopeRows → Except IoError Bytes
  decodeSnapshot : Bytes → Except IoError Snapshot

/-- The header of an array of 32 bit length. -/
def array32 (n : Nat) : Bytes := 0xdd :: (leBytes 4 n).reverse

@[simp] theorem array32_length (n : Nat) : (array32 n).length = 5 := by simp [array32]

/-- What was encoded is decoded: deltas behind a header that announces their number, and a snapshot
whose scopes announce the numbers of their rows; and it fits into a file. -/
structure Codec.RoundTrips (codec : Codec) : Prop where
  deltas : ∀ (ds : List Delta) (encoded : List Bytes), ds.length < 2 ^ 32 →
    List.Forall₂ (fun d bytes => codec.encodeDelta d = .ok bytes) ds encoded →
    codec.decodeDeltas (array32 ds.length ++ encoded.flatten) = .ok ds
  snapshot : ∀ (stamps : Dict Text Stamp) (rows : List (Text × List DirectoryEntryRecord))
    (bytes : Bytes),
    codec.encodeSnapshot stamps (rows.map fun e => (e.1, e.2.length, e.2.map recordFields)) =
      .ok bytes →
    bytes.length < 2 ^ 64 ∧ codec.decodeSnapshot bytes = .ok ⟨stamps, rows⟩

abbrev Catalogs (Anchor Observation : Type) := Dict Text (ScopeCatalog Anchor Observation)

structure Disk where
  snapshot : Option Bytes := none
  wal : Option Bytes := none

/-- `written` is the frontier of the journal's stream. -/
structure CatalogStore where
  seq : UInt64 := 0
  written : UInt64 := 0
  edits : Nat := 0
  pending : Bytes := []
  pendingDeltas : Nat := 0
  stamps : Dict Text Stamp := ∅

variable {Anchor Observation : Type} (T : DowncaseTable) (crc : Bytes → UInt32) (codec : Codec)

/-! ## Opening -/

/-- A delta on the catalogs. -/
def applyDelta (catalogs : Catalogs Anchor Observation) (d : Delta) : Catalogs Anchor Observation :=
  catalogs.set d.scope (d.rows.foldl (ScopeCatalog.insert T)
    (((catalogs.get? d.scope).getD {}).removeMany T d.removed))

def applyStamp (stamps : Dict Text Stamp) (d : Delta) : Dict Text Stamp :=
  match d.stamp with
  | some stamp => stamps.set d.scope stamp
  | none => stamps

def Delta.edits (d : Delta) : Nat := d.rows.length + d.removed.length + 1

/-- What `open` has read so far. -/
structure Loaded (Anchor Observation : Type) where
  seq : UInt64 := 0
  edits : Nat := 0
  stamps : Dict Text Stamp := ∅
  catalogs : Catalogs Anchor Observation := ∅

def Loaded.delta (l : Loaded Anchor Observation) (d : Delta) : Loaded Anchor Observation :=
  { l with
    edits := l.edits + d.edits
    catalogs := applyDelta T l.catalogs d
    stamps := applyStamp l.stamps d }

/-- One transaction of the WAL. A transaction that the snapshot covers is skipped. -/
def Loaded.transaction (l : Loaded Anchor Observation) (seq : UInt64) (payload : Bytes) :
    Except IoError (Loaded Anchor Observation) :=
  (codec.decodeDeltas payload).bind fun deltas =>
    if deltas = [] then .error (invalid "empty catalog transaction")
    else if seq ≤ l.seq then .ok l
    else if l.seq.toNat + 1 ≠ seq.toNat then .error (invalid "catalog WAL gap")
    else .ok { deltas.foldl (Loaded.delta T) l with seq := seq }

def loadSnapshot (disk : Disk) : Except IoError (Loaded Anchor Observation) :=
  match disk.snapshot with
  | none => .ok {}
  | some file =>
    (readSnapshot crc codec.decodeSnapshot file .catalogSnapshot).bind fun read => .ok {
      seq := read.1
      stamps := read.2.stamps
      catalogs := read.2.rows.foldl
        (fun catalogs e => catalogs.set e.1 (e.2.foldl (ScopeCatalog.insert T) {})) ∅ }

def loadWal (disk : Disk) (l : Loaded Anchor Observation) :
    Except IoError (Loaded Anchor Observation) :=
  match disk.wal with
  | none => .ok l
  | some file =>
    (Reader.new file .catalogWal).bind fun reader =>
      (reader.forEach crc id (Loaded.transaction T codec) l).bind fun read =>
        if read.2.torn then .error (invalid "torn catalog WAL") else .ok read.1

def load (disk : Disk) : Except IoError (Loaded Anchor Observation) :=
  (loadSnapshot T crc codec disk).bind (loadWal T crc codec disk)

/-- What was opened, and the disk afterwards. -/
structure Opened (Anchor Observation : Type) where
  store : CatalogStore
  catalogs : Catalogs Anchor Observation
  disk : Disk

/-- The cache is discarded as a unit if it does not load. A WAL that a snapshot covers goes, if its
removal succeeds. -/
def openStore (disk : Disk) (removed : Bool) : Opened Anchor Observation :=
  match load T crc codec disk with
  | .error _ => ⟨{}, ∅, {}⟩
  | .ok l =>
    ⟨{ seq := l.seq, written := l.seq, edits := l.edits, stamps := l.stamps }, l.catalogs,
      if disk.snapshot.any (·.length ≠ 0) && l.edits = 0 && removed then { disk with wal := none }
      else disk⟩

/-! ## Writing -/

/-- `append_cache`: the journal takes only the number after its frontier, and appends the transaction
to the WAL, which it creates with a header. -/
def appendCache (written : UInt64) (wal : Option Bytes) (seq : UInt64) (payload : Bytes) :
    Except IoError Bytes :=
  if written.toNat + 1 ≠ seq.toNat then
    .error (invalid "non-monotonic Watch journal sequence")
  else (Wal.openSegment (wal.getD []) .catalogWal).bind fun file => appendFrame crc file seq [payload]

/-- The number of pending deltas goes into the header in front of them. -/
def CatalogStore.commit (store : CatalogStore) (disk : Disk) :
    Except IoError (CatalogStore × Disk) :=
  if store.pendingDeltas = 0 then .ok (store, disk)
  else
    let bytes := store.pending.take 1 ++ (leBytes 4 store.pendingDeltas).reverse ++
      store.pending.drop 5
    let next := store.seq + 1
    (appendCache crc store.written disk.wal next bytes).bind fun wal =>
      .ok ({ store with pending := [], seq := next, written := next, pendingDeltas := 0 },
        { disk with wal := some wal })

/-- The delta in the store's memory: encoded behind the others, with its stamp. -/
def CatalogStore.push (store : CatalogStore) (d : Delta) (bytes : Bytes) : CatalogStore :=
  { store with
    pending := (if store.pendingDeltas = 0 then store.pending ++ array32 0 else store.pending) ++
      bytes
    edits := store.edits + d.edits
    stamps := applyStamp store.stamps d
    pendingDeltas := store.pendingDeltas + 1 }

/-- A delta that is not encoded leaves nothing behind. A cursor, enough deltas or enough bytes commit. -/
def CatalogStore.append (store : CatalogStore) (disk : Disk) (d : Delta) :
    Except IoError (CatalogStore × Disk) :=
  (codec.encodeDelta d).bind fun bytes =>
    let store := store.push d bytes
    if d.stamp.any (·.cursor.isSome) || BATCH_DELTAS ≤ store.pendingDeltas ||
        BATCH_BYTES ≤ store.pending.length then store.commit crc disk
    else .ok (store, disk)

/-- The rows of every scope but the one without a name, which keeps observations only. -/
def catalogRows (catalogs : Catalogs Anchor Observation) : List ScopeRows :=
  (catalogs.entries.filter fun e => e.1 ≠ []).map fun e =>
    (e.1, e.2.persistentLen, persistentRows e.2)

/-- The new snapshot replaces the old one; the WAL is still there. -/
def CatalogStore.publish (store : CatalogStore) (disk : Disk)
    (catalogs : Catalogs Anchor Observation) : Except IoError Disk :=
  (codec.encodeSnapshot store.stamps (catalogRows catalogs)).bind fun payload =>
    .ok { disk with snapshot := some (writeSnapshot crc .catalogSnapshot store.seq payload) }

/-- Commit, publish, remove the WAL, and start a stream at the same number. -/
def CatalogStore.checkpoint (store : CatalogStore) (disk : Disk)
    (catalogs : Catalogs Anchor Observation) : Except IoError (CatalogStore × Disk) :=
  if store.edits = 0 then .ok (store, disk)
  else (store.commit crc disk).bind fun committed =>
    (committed.1.publish crc codec committed.2 catalogs).bind fun published =>
      .ok ({ committed.1 with edits := 0, written := committed.1.seq },
        { published with wal := none })

end Sunpack.CatalogCache
