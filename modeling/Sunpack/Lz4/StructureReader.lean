import Mathlib

/-!
# The windowed reader

`StructureReader` keeps one window of the input and moves it to the fields it is asked for. `Reads` is
what holds of it in front of every field: with windows of at least 19 bytes, the longest header, `field`
gives the bytes of the flat input.
-/

namespace Sunpack.Lz4

/-- What the parser and the walk give as an error. -/
inductive WalkError
  | sizeOverflow
  | streamTruncated
  | headerTruncated
  | magicNotFound
  | versionUnsupported
  | reservedBitsSet
  | blockSizeInvalid
  | headerChecksumBad
  deriving DecidableEq

def WalkError.text : WalkError → String
  | sizeOverflow => "lz4_size_overflow"
  | streamTruncated => "lz4_stream_truncated"
  | headerTruncated => "lz4_header_truncated"
  | magicNotFound => "lz4_magic_not_found"
  | versionUnsupported => "lz4_version_unsupported"
  | reservedBitsSet => "lz4_reserved_bits_set"
  | blockSizeInvalid => "lz4_block_size_invalid"
  | headerChecksumBad => "lz4_header_checksum_bad"

theorem WalkError.text_isEmpty (e : WalkError) : e.text.isEmpty = false := by
  cases e <;> decide

/-- The bytes of an input; its length is a `u64`. -/
structure ManagedReader where
  bytes : List UInt8
  length_lt : bytes.length < 2 ^ 64

def ManagedReader.readCachedAt (reader : ManagedReader) (offset length : Nat) : List UInt8 :=
  (reader.bytes.drop offset).take length

structure StructureReader where
  reader : ManagedReader
  limit : Nat
  windowBytes : Nat
  start : Nat
  window : List UInt8

namespace StructureReader

/-- The size of the next window: four times the one that has been consumed, or a small probe. -/
def nextWindow (input : StructureReader) (cursor : Nat) : Nat :=
  if input.window ≠ [] ∧ input.start ≤ cursor ∧ cursor ≤ input.start + input.window.length then
    min (min (input.window.length * 4) (2 ^ 64 - 1)) input.windowBytes
  else min input.windowBytes 256

def refill (input : StructureReader) (cursor : Nat) : StructureReader :=
  { input with
    start := cursor
    window := input.reader.readCachedAt cursor (min (input.limit - cursor) (input.nextWindow cursor)) }

/-- `window.get(from..from + n)` -/
def get (input : StructureReader) (cursor n : Nat) : Except WalkError (List UInt8) :=
  if cursor - input.start + n ≤ input.window.length then
    .ok ((input.window.drop (cursor - input.start)).take n)
  else .error .streamTruncated

def field (input : StructureReader) (cursor n : Nat) : Except WalkError (List UInt8) × StructureReader :=
  if 2 ^ 64 ≤ cursor + n then (.error .sizeOverflow, input)
  else if input.limit < cursor + n then (.error .streamTruncated, input)
  else if cursor < input.start ∨ input.start + input.window.length < cursor + n then
    ((input.refill cursor).get cursor n, input.refill cursor)
  else (input.get cursor n, input)

theorem field_limit (input : StructureReader) (cursor n : Nat) :
    (input.field cursor n).2.limit = input.limit := by
  unfold field
  split_ifs <;> rfl

end StructureReader

/-! ## The flat input -/

/-- The reader gives the bytes of `data`. A window is large enough for any field unless it ends where
the input does. -/
structure Reads (data : List UInt8) (input : StructureReader) : Prop where
  limit : input.limit = data.length
  taken : data <+: input.reader.bytes
  windowBytes : 19 ≤ input.windowBytes
  window : input.window = (data.drop input.start).take input.window.length
  large : input.window = [] ∨ 19 ≤ input.window.length ∨
    input.start + input.window.length = data.length

namespace Reads

variable {data : List UInt8} {input : StructureReader} {cursor n : Nat}

/-- A window of the right bytes gives the field if it is inside. -/
theorem get_eq (h : Reads data input) (hstart : input.start ≤ cursor)
    (hend : cursor + n ≤ input.start + input.window.length) :
    input.get cursor n = .ok ((data.drop cursor).take n) := by
  have hinside : cursor - input.start + n ≤ input.window.length := by omega
  rw [StructureReader.get, if_pos hinside, h.window, List.drop_take, List.drop_drop,
    List.take_take, Nat.add_sub_cancel' hstart, min_eq_left (by omega)]

theorem nextWindow_ge (h : Reads data input) (hroom : cursor + n ≤ data.length)
    (hmoves : cursor < input.start ∨ input.start + input.window.length < cursor + n) :
    19 ≤ input.nextWindow cursor := by
  have hwindow := h.windowBytes
  unfold StructureReader.nextWindow
  split_ifs with hnear
  · have hlarge : 19 ≤ input.window.length := by
      rcases h.large with hempty | hlarge | hlast
      · exact absurd hempty hnear.1
      · exact hlarge
      · omega
    omega
  · omega

theorem refill (h : Reads data input) (hroom : cursor + n ≤ data.length)
    (hmoves : cursor < input.start ∨ input.start + input.window.length < cursor + n) :
    Reads data (input.refill cursor) ∧
      min (data.length - cursor) 19 ≤ (input.refill cursor).window.length := by
  have hnext := h.nextWindow_ge hroom hmoves
  obtain ⟨behind, hbehind⟩ := h.taken
  have hwindow : (input.refill cursor).window =
      (data.drop cursor).take (min (data.length - cursor) (input.nextWindow cursor)) := by
    show (input.reader.bytes.drop cursor).take (min (input.limit - cursor) _) = _
    rw [h.limit, ← hbehind, List.drop_append_of_le_length (by omega),
      List.take_append_of_le_length (by rw [List.length_drop]; omega)]
  have hlength : (input.refill cursor).window.length =
      min (data.length - cursor) (input.nextWindow cursor) := by
    rw [hwindow, List.length_take, List.length_drop]
    omega
  refine ⟨⟨h.limit, h.taken, h.windowBytes, ?_, ?_⟩, by omega⟩
  · rw [hlength]
    exact hwindow
  · rw [hlength]
    show _ ∨ _ ∨ cursor + _ = _
    omega

/-- A field inside of the input is what stands there. -/
theorem field_eq (h : Reads data input) (hn : n ≤ 19) (hroom : cursor + n ≤ data.length) :
    ∃ input', Reads data input' ∧
      input.field cursor n = (.ok ((data.drop cursor).take n), input') := by
  have hlength := input.reader.length_lt
  have htaken := h.taken.length_le
  have hlimit := h.limit
  unfold StructureReader.field
  rw [if_neg (by omega), if_neg (by omega)]
  by_cases hmoves : cursor < input.start ∨ input.start + input.window.length < cursor + n
  · obtain ⟨hrefill, hlarge⟩ := h.refill hroom hmoves
    have hstart : (input.refill cursor).start ≤ cursor := le_rfl
    rw [if_pos hmoves, hrefill.get_eq hstart
      (show cursor + n ≤ cursor + (input.refill cursor).window.length by omega)]
    exact ⟨_, hrefill, rfl⟩
  · rw [if_neg hmoves, h.get_eq (by omega) (by omega)]
    exact ⟨_, h, rfl⟩

/-- A field that is given is one of the input. -/
theorem of_field (h : Reads data input) (hn : n ≤ 19) {bytes : List UInt8} {input' : StructureReader}
    (hfield : input.field cursor n = (.ok bytes, input')) :
    cursor + n ≤ data.length ∧ bytes = (data.drop cursor).take n ∧ Reads data input' := by
  by_cases hroom : cursor + n ≤ data.length
  · obtain ⟨after, hafter, heq⟩ := h.field_eq hn hroom
    rw [heq] at hfield
    obtain ⟨hbytes, rfl⟩ := Prod.mk.inj hfield
    exact ⟨hroom, (Except.ok.inj hbytes).symm, hafter⟩
  · unfold StructureReader.field at hfield
    have hlimit := h.limit
    by_cases hoverflow : 2 ^ 64 ≤ cursor + n
    · rw [if_pos hoverflow] at hfield
      cases hfield
    · rw [if_neg hoverflow, if_pos (by omega)] at hfield
      cases hfield

/-- The reader as the walk makes it. -/
theorem initial {reader : ManagedReader} {limit windowBytes : Nat} (h : limit ≤ reader.bytes.length)
    (hwindow : 19 ≤ windowBytes) :
    Reads (reader.bytes.take limit) ⟨reader, limit, windowBytes, 0, []⟩ where
  limit := (List.length_take_of_le h).symm
  taken := List.take_prefix _ _
  windowBytes := hwindow
  window := List.take_zero.symm
  large := .inl rfl

end Reads

end Sunpack.Lz4
