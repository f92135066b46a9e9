import Sunpack.Lib.Holes
import Sunpack.Lib.LittleEndian

/-!
# Records of the display store

`write_record` and `record_size` of `display_store.rs`: a record is packed behind the data of its run,
and an entry of fixed width that points at it goes into the index. A large record is an envelope of
packed blocks, and its entry has no sizes.
-/

namespace Sunpack.DisplayStore

open Sunpack.Lib

abbrev Bytes := List UInt8

/-- What the store takes of a value, and the packing of blocks; packing gives at least one byte and at
most what `LZ4_compressBound` says. -/
structure Codec (V : Type) where
  event : V → String
  encode : V → Bytes
  compressBlock : Bytes → Bytes
  compressBlock_ne_nil : ∀ raw, compressBlock raw ≠ []
  compressBlock_le : ∀ raw, (compressBlock raw).length ≤ raw.length + raw.length / 255 + 16
  encode_lt : ∀ value, (encode value).length < 2 ^ 63

def memoryBytes : Nat := 4 * 1024 * 1024

def recordBlockBytes : Nat := 1024 * 1024

def dayUs : Int := 86400000000

/-- The fields of an entry of the index that the store reads, and what else it writes. -/
structure Entry where
  stamp : Int
  offset : Nat
  packedLength : Nat
  rawLength : Nat
  kind : Nat
  slot : Nat
deriving DecidableEq

/-- An entry of zeros only. -/
def Entry.zero : Entry := ⟨0, 0, 0, 0, 0, 0⟩

abbrev RunName := List Char

structure Run where
  name : RunName
  first : Int
  last : Int
  head : Nat
  count : Nat
  unordered : Bool
deriving DecidableEq

/-- The two files of a run. -/
structure RunFiles where
  data : Bytes
  index : List Entry

def RunFiles.empty : RunFiles := ⟨[], []⟩

variable {V : Type} (c : Codec V)

def kind (value : V) : Nat :=
  match c.event value with
  | "processing_started" => 1
  | "failed_password" => 2
  | "suspended_missing_volume" => 3
  | "done" => 4
  | "failed_terminal" => 5
  | "partial_rejected" => 5
  | _ => 0

/-! ## Writing -/

/-- `chunks`, with a bound on their number. -/
def chunks (size : Nat) : Nat → Bytes → List Bytes
  | 0, _ => []
  | n + 1, raw => if raw = [] then [] else raw.take size :: chunks size n (raw.drop size)

def blockBytes (block : Bytes) : Bytes :=
  leBytes 4 (c.compressBlock block).length ++ leBytes 4 block.length ++ c.compressBlock block

/-- `SPDC` -/
def magic : Bytes := [0x53, 0x50, 0x44, 0x43]

def envelopeBody (raw : Bytes) : Bytes :=
  (chunks recordBlockBytes raw.length raw).flatMap (blockBytes c)

/-- The header gets the size once all blocks are written. -/
def envelope (raw : Bytes) : Bytes :=
  magic ++ [0, 0, 0, 0] ++ leBytes 8 (24 + (envelopeBody c raw).length) ++ leBytes 8 raw.length ++
    envelopeBody c raw

/-- What a record puts behind the data. -/
def recordBytes (value : V) : Bytes :=
  if (c.encode value).length ≤ memoryBytes then c.compressBlock (c.encode value)
  else envelope c (c.encode value)

def recordLengths (value : V) : Nat × Nat :=
  if (c.encode value).length ≤ memoryBytes then
    ((c.compressBlock (c.encode value)).length % 2 ^ 32, (c.encode value).length % 2 ^ 32)
  else (0, 0)

def recordEntry (value : V) (ts : Int) (position count : Nat) : Entry where
  stamp := ts
  offset := position
  packedLength := (recordLengths c value).1
  rawLength := (recordLengths c value).2
  kind := kind c value
  slot := count % 2 ^ 32

/-- A write of an entry at a slot. -/
def writeSlot (index : List Entry) (slot : Nat) (e : Entry) : List Entry :=
  if slot < index.length then index.set slot e
  else index ++ List.replicate (slot - index.length) Entry.zero ++ [e]

/-- `write_record`: the files, the run and the entry. -/
def writeRecord (f : RunFiles) (run : Run) (value : V) (ts : Int) : RunFiles × Run × Entry :=
  let e := recordEntry c value ts f.data.length run.count
  (⟨f.data ++ recordBytes c value, writeSlot f.index run.count e⟩,
    { run with
      first := if run.count = 0 then ts else run.first
      last := ts
      count := run.count + 1 },
    e)

/-! ## Reading -/

def recordSize (data : Bytes) (e : Entry) : Option Nat :=
  if e.packedLength ≠ 0 then some e.packedLength
  else
    let header := (data.drop e.offset).take 24
    let size := ofLeBytes ((header.drop 8).take 8)
    if header.length < 24 then none
    else if header.take 4 ≠ magic ∨ size < 24 ∨ data.length < e.offset + size then none
    else some size

/-! ## Slots -/

theorem writeSlot_end {index : List Entry} {slot : Nat} (h : index.length = slot) (e : Entry) :
    writeSlot index slot e = index ++ [e] := by
  unfold writeSlot
  rw [if_neg (by omega), h, Nat.sub_self, List.replicate_zero, List.append_nil]

theorem length_writeSlot {index : List Entry} {slot : Nat} (h : slot ≤ index.length) (e : Entry) :
    (writeSlot index slot e).length = max index.length (slot + 1) := by
  unfold writeSlot
  split_ifs
  · rw [List.length_set]
    omega
  · simp only [List.length_append, List.length_replicate, List.length_singleton]
    omega

theorem getElem?_writeSlot {index : List Entry} {slot : Nat} (h : slot ≤ index.length) (e : Entry)
    (k : Nat) : (writeSlot index slot e)[k]? = if k = slot then some e else index[k]? := by
  rcases Nat.lt_or_ge slot index.length with hlt | hge
  · unfold writeSlot
    rw [if_pos hlt]
    split_ifs with hk
    · rw [hk, List.getElem?_set_self hlt]
    · exact List.getElem?_set_ne (Ne.symm hk)
  · have hend : index.length = slot := by omega
    rw [writeSlot_end hend]
    split_ifs with hk
    · rw [hk, ← hend, List.getElem?_concat_length]
    · rcases Nat.lt_or_ge k index.length with hlt | hge
      · exact List.getElem?_append_left hlt
      · rw [List.getElem?_eq_none hge, List.getElem?_eq_none]
        rw [List.length_append, List.length_singleton]
        omega

/-! ## Sizes -/

theorem recordBytes_ne_nil (value : V) : recordBytes c value ≠ [] := by
  unfold recordBytes
  split_ifs
  · exact c.compressBlock_ne_nil _
  · simp [envelope, magic]

theorem length_blockBytes (block : Bytes) :
    255 * (blockBytes c block).length ≤ 256 * block.length + 255 * 24 := by
  have hbound := c.compressBlock_le block
  simp only [blockBytes, List.length_append, leBytes_length]
  omega

theorem length_chunks_le {size : Nat} (hsize : 0 < size) (n : Nat) (raw : Bytes) :
    255 * ((chunks size n raw).flatMap (blockBytes c)).length ≤
      256 * raw.length + 255 * 24 * (raw.length / size + 1) := by
  induction n generalizing raw with
  | zero => simp [chunks]
  | succ n ih =>
    unfold chunks
    split_ifs with hempty
    · simp
    · have hrest := ih (raw.drop size)
      have hblock := length_blockBytes c (raw.take size)
      rw [List.length_take] at hblock
      rw [List.length_drop] at hrest
      rw [List.flatMap_cons, List.length_append]
      by_cases hlt : raw.length < size
      · have hdrop : raw.drop size = [] := List.drop_eq_nil_of_le (by omega)
        have hnil : (chunks size n (raw.drop size)).flatMap (blockBytes c) = [] := by
          rw [hdrop]
          cases n with
          | zero => rfl
          | succ n => rfl
        rw [hnil, List.length_nil]
        rw [Nat.div_eq_of_lt hlt]
        omega
      · have hdiv : raw.length / size = (raw.length - size) / size + 1 :=
          Nat.div_eq_sub_div hsize (by omega)
        rw [hdiv]
        omega

theorem envelope_lt {raw : Bytes} (h : raw.length < 2 ^ 63) :
    24 + (envelopeBody c raw).length < 256 ^ 8 := by
  have hbound := length_chunks_le c (show 0 < recordBlockBytes by decide) raw.length raw
  unfold envelopeBody
  unfold recordBlockBytes at hbound ⊢
  omega

theorem length_envelope (raw : Bytes) :
    (envelope c raw).length = 24 + (envelopeBody c raw).length := by
  simp only [envelope, magic, List.length_append, leBytes_length, List.length_cons, List.length_nil]

theorem compressBlock_lt {raw : Bytes} (h : raw.length ≤ memoryBytes) :
    (c.compressBlock raw).length % 2 ^ 32 = (c.compressBlock raw).length := by
  have hbound := c.compressBlock_le raw
  unfold memoryBytes at h
  exact Nat.mod_eq_of_lt (by omega)

/-! ## Whole records -/

/-- An entry points at a whole record. -/
structure Whole (data : Bytes) (e : Entry) (ts : Int) (value : V) : Prop where
  entry : ∃ count, e = recordEntry c value ts e.offset count
  stands : StandsAt data e.offset (recordBytes c value)

variable {c}

theorem Whole.stamp {data : Bytes} {e : Entry} {ts : Int} {value : V} (h : Whole c data e ts value) :
    e.stamp = ts := by
  obtain ⟨count, he⟩ := h.entry
  rw [he]
  rfl

theorem Whole.append {data : Bytes} {e : Entry} {ts : Int} {value : V} (h : Whole c data e ts value)
    (more : Bytes) : Whole c (data ++ more) e ts value :=
  ⟨h.entry, h.stands.append more⟩

theorem Whole.hole {data : Bytes} {e : Entry} {ts : Int} {value : V} {start stop : Nat}
    (h : Whole c data e ts value)
    (hout : stop ≤ e.offset ∨ e.offset + (recordBytes c value).length ≤ start) :
    Whole c (hole 0 start stop data) e ts value :=
  ⟨h.entry, h.stands.hole 0 hout⟩

theorem Whole.le_length {data : Bytes} {e : Entry} {ts : Int} {value : V}
    (h : Whole c data e ts value) : e.offset + (recordBytes c value).length ≤ data.length :=
  h.stands.le_length (recordBytes_ne_nil c value)

/-- The record that was just written. -/
theorem whole_written (data : Bytes) (value : V) (ts : Int) (count : Nat) :
    Whole c (data ++ recordBytes c value) (recordEntry c value ts data.length count) ts value :=
  ⟨⟨count, rfl⟩, standsAt_end data (recordBytes c value)⟩

/-- The size of a whole record. -/
theorem Whole.recordSize {data : Bytes} {e : Entry} {ts : Int} {value : V}
    (h : Whole c data e ts value) : recordSize data e = some (recordBytes c value).length := by
  obtain ⟨count, he⟩ := h.entry
  have hlength := h.le_length
  have hstands := h.stands.take_drop
  have hpacked : e.packedLength = (recordLengths c value).1 := by
    rw [he]
    rfl
  unfold DisplayStore.recordSize
  rw [hpacked]
  unfold recordLengths
  unfold recordBytes at hlength hstands ⊢
  by_cases hsmall : (c.encode value).length ≤ memoryBytes
  · have hpos := List.length_pos_iff.2 (c.compressBlock_ne_nil (c.encode value))
    rw [if_pos hsmall, if_pos hsmall]
    simp only [compressBlock_lt c hsmall]
    rw [if_pos (by omega)]
  · rw [if_neg hsmall] at hlength hstands
    rw [if_neg hsmall, if_neg hsmall]
    have hsize := length_envelope c (c.encode value)
    have hlt := envelope_lt c (c.encode_lt value)
    have hheader : (data.drop e.offset).take 24 = magic ++ [0, 0, 0, 0] ++
        leBytes 8 (24 + (envelopeBody c (c.encode value)).length) ++
          leBytes 8 (c.encode value).length := by
      have htake := congrArg (List.take 24) hstands
      rw [List.take_take, Nat.min_eq_left (by omega)] at htake
      rw [htake]
      exact List.take_left' (by simp [magic])
    have hsized : ofLeBytes (((((data.drop e.offset).take 24).drop 8)).take 8) =
        24 + (envelopeBody c (c.encode value)).length := by
      rw [hheader, List.append_assoc, List.drop_left' (by rfl), List.take_left' (leBytes_length _ _)]
      exact ofLeBytes_leBytes_of_lt hlt
    have hlen : ((data.drop e.offset).take 24).length = 24 := by
      rw [hheader]
      simp [magic]
    have hmagic : ((data.drop e.offset).take 24).take 4 = magic := by
      rw [hheader, List.append_assoc, List.append_assoc, List.take_left' (by rfl)]
    have hzero : ¬ (0 : Nat) ≠ 0 := fun h => h rfl
    simp only [hsized, hlen, hmagic]
    rw [if_neg hzero, if_neg (by omega), if_neg, hsize]
    rintro (h | h)
    · exact h rfl
    · omega

end Sunpack.DisplayStore
