import Sunpack.Lib.Dict
import Sunpack.Lib.Probing
import Sunpack.Scratch.Spool

/-!
# The map on the disk

`DiskMap` of `scratch.rs`: an index of open addressing whose slots have the place of a record in a
spool and the hash of its key. A new value of a key is a new record; the old one is never read again.
-/

namespace Sunpack.Scratch

open Sunpack.Lib

/-- What a map rests on: MessagePack, any hash, the size of a value, the order in which a hash map
gives its entries, and how much is held in memory. -/
structure Setting (V : Type) where
  memoryBytes : Nat
  valueBytes : Nat
  encode : String × V → Bytes
  decode : Bytes → Option (String × V)
  decode_encode : ∀ pair, decode (encode pair) = some pair
  xxh64 : String → UInt64
  iterate : Dict String V → List (String × V)
  iterate_perm : ∀ d, (iterate d).Perm d.entries

/-- Two words for each slot: the place of its record plus one, or zero, and the hash of its key. -/
structure DiskMap where
  slots : Nat → Nat
  capacity : Nat
  count : Nat
  data : Reader

variable {V : Type} (e : Setting V)

namespace DiskMap

def hash (key : String) : Nat := (e.xxh64 key).toNat

def new (capacity : Nat) : DiskMap := ⟨fun _ => 0, capacity, 0, Reader.empty⟩

def setSlot (slots : Nat → Nat) (slot offset hash : Nat) : Nat → Nat :=
  Function.update (Function.update slots (slot * 2) offset) (slot * 2 + 1) hash

/-- A record that is in the buffer is read from there. -/
def seekRow (data : Reader) (offset : Nat) : Reader :=
  if data.start ≤ offset ∧ offset ≤ data.spool.position then data.consume (offset - data.start)
  else data.seekStart offset

def row (data : Reader) (offset : Nat) : Option ((String × V) × Reader) :=
  ((seekRow data offset).readExact 4).bind fun length =>
    (length.2.readExact (ofLeBytes length.1)).bind fun bytes =>
      (e.decode bytes.1).map fun pair => (pair, bytes.2)

/-- The loop of `find`, in at most so many rounds. -/
def findLoop (m : DiskMap) (key : String) (hash : Nat) :
    Nat → Nat → Reader → Option (Nat × Option V × Reader)
  | 0, _, _ => none
  | n + 1, slot, data =>
    if m.slots (slot * 2) = 0 then some (slot, none, data)
    else if m.slots (slot * 2 + 1) = hash then
      (row e data (m.slots (slot * 2) - 1)).bind fun stored =>
        if stored.1.1 = key then some (slot, some stored.1.2, stored.2)
        else findLoop m key hash n ((slot + 1) &&& (m.capacity - 1)) stored.2
    else findLoop m key hash n ((slot + 1) &&& (m.capacity - 1)) data

def find (m : DiskMap) (key : String) (hash : Nat) : Option (Nat × Option V × Reader) :=
  findLoop e m key hash m.capacity (hash &&& (m.capacity - 1)) m.data

def get (m : DiskMap) (key : String) : Option (Option V × DiskMap) :=
  (find e m key (hash e key)).map fun found => (found.2.1, { m with data := found.2.2 })

/-- The first slot behind a hash that has no record. -/
def emptySlot (slots : Nat → Nat) (capacity hash : Nat) : Option Nat :=
  probe (fun slot => slots (slot * 2) == 0) capacity capacity (hash &&& (capacity - 1))

/-- One round of the loop that fills the larger index. -/
def moveSlot (m : DiskMap) (slots : Nat → Nat) (index : Nat) : Option (Nat → Nat) :=
  if m.slots (index * 2) = 0 then some slots
  else
    (emptySlot slots (m.capacity * 2) (m.slots (index * 2 + 1))).map fun slot =>
      setSlot slots slot (m.slots (index * 2)) (m.slots (index * 2 + 1))

def grow (m : DiskMap) : Option DiskMap :=
  ((List.range m.capacity).foldlM (moveSlot m) fun _ => 0).map fun slots =>
    { m with slots := slots, capacity := m.capacity * 2 }

/-- The slot for a key that is not there, in an index that has room for it. -/
def makeRoom (m : DiskMap) (slot hash : Nat) (isNew : Bool) : Option (Nat × DiskMap) :=
  if isNew && decide (m.capacity / 2 ≤ m.count) then
    m.grow.bind fun m => (emptySlot m.slots m.capacity hash).map fun slot => (slot, m)
  else some (slot, m)

/-- The record goes to the end of the spool; its length has to fit into four bytes. -/
def append (m : DiskMap) (slot hash : Nat) (pair : String × V) (isNew : Bool) : Option DiskMap :=
  if (e.encode pair).length < 2 ^ 32 then
    let spool := m.data.seekEnd.spool
    some {
      slots := setSlot m.slots slot (spool.position + 1) hash
      capacity := m.capacity
      count := if isNew then m.count + 1 else m.count
      data := ⟨(spool.write e.memoryBytes (leBytes 4 (e.encode pair).length)).write e.memoryBytes
        (e.encode pair), []⟩ }
  else none

def put (m : DiskMap) (key : String) (value : V) (onlyNew : Bool) : Option (Bool × DiskMap) :=
  (find e m key (hash e key)).bind fun found =>
    let m := { m with data := found.2.2 }
    if onlyNew && found.2.1.isSome then some (false, m)
    else
      (makeRoom m found.1 (hash e key) found.2.1.isNone).bind fun room =>
        (append e room.2 room.1 (hash e key) (key, value) found.2.1.isNone).map fun m =>
          (found.2.1.isNone, m)

/-! ## Records -/

/-- A record as it stands in the spool. -/
def record (pair : String × V) : Bytes := leBytes 4 (e.encode pair).length ++ e.encode pair

/-- A record that can be read at a place. -/
structure Recorded (bytes : Bytes) (offset : Nat) (pair : String × V) : Prop where
  stands : StandsAt bytes offset (record e pair)
  short : (e.encode pair).length < 2 ^ 32

variable {e}

theorem Recorded.append {bytes : Bytes} {offset : Nat} {pair : String × V}
    (h : Recorded e bytes offset pair) (more : Bytes) : Recorded e (bytes ++ more) offset pair :=
  ⟨h.stands.append more, h.short⟩

theorem length_record (pair : String × V) : (record e pair).length = 4 + (e.encode pair).length := by
  unfold record
  rw [List.length_append, leBytes_length]

theorem Recorded.le_length {bytes : Bytes} {offset : Nat} {pair : String × V}
    (h : Recorded e bytes offset pair) :
    offset + (4 + (e.encode pair).length) ≤ bytes.length := by
  have hlength := length_record (e := e) pair
  have hne : record e pair ≠ [] := by
    intro hnil
    rw [hnil, List.length_nil] at hlength
    omega
  rw [← hlength]
  exact h.stands.le_length hne

theorem over_seekRow {data : Reader} {bytes : Bytes} (h : data.Over bytes) {offset : Nat}
    (hoffset : offset ≤ bytes.length) :
    (seekRow data offset).Over bytes ∧ (seekRow data offset).start = offset := by
  unfold seekRow
  split_ifs with hbuffered
  · obtain ⟨hstart, hstop⟩ := hbuffered
    have hahead := h.ahead
    have hposition : data.start = data.spool.position - data.buffer.length := rfl
    obtain ⟨hover, hnext⟩ := h.consume (show offset - data.start ≤ data.buffer.length by omega)
    refine ⟨hover, ?_⟩
    rw [hnext]
    omega
  · exact h.seekStart hoffset

/-- The record at a place is read, wherever the reader was. -/
theorem row_spec {data : Reader} {bytes : Bytes} (h : data.Over bytes) {offset : Nat}
    {pair : String × V} (hrecorded : Recorded e bytes offset pair) :
    ∃ data', row e data offset = some (pair, data') ∧ data'.Over bytes := by
  have hle := hrecorded.le_length
  obtain ⟨hover, hstart⟩ := over_seekRow h (show offset ≤ bytes.length by omega)
  obtain ⟨data₁, hread₁, hover₁, hstart₁⟩ := hover.readExact (n := 4) (by rw [hstart]; omega)
  have hlength : slice bytes offset 4 = leBytes 4 (e.encode pair).length := by
    have hslice := hrecorded.stands.left.slice
    rwa [leBytes_length] at hslice
  rw [hstart, hlength] at hread₁
  rw [hstart] at hstart₁
  obtain ⟨data₂, hread₂, hover₂, -⟩ := hover₁.readExact (n := (e.encode pair).length)
    (by rw [hstart₁]; omega)
  have hbody : slice bytes (offset + 4) (e.encode pair).length = e.encode pair := by
    have hslice := hrecorded.stands.right.slice
    rwa [leBytes_length] at hslice
  rw [hstart₁, hbody] at hread₂
  refine ⟨data₂, ?_, hover₂⟩
  unfold row
  rw [hread₁, Option.bind_some, ofLeBytes_leBytes_of_lt (lt_of_lt_of_le hrecorded.short (by norm_num)),
    hread₂, Option.bind_some, e.decode_encode]
  rfl

end DiskMap

end Sunpack.Scratch
