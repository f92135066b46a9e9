import Sunpack.Lib.BigEndian

/-!
# The LZ4 frame format

What the walk of `formats/lz4.rs` is to recognise, as data that cannot be ill formed: descriptors,
blocks, frames and skippable frames with the bytes they stand for, and streams of them. Nothing here
parses.
-/

namespace Sunpack.Lz4

open Lib

/-- The checksum function, which belongs to the LZ4 library. -/
abbrev Xxh32 := List UInt8 → UInt32

/-! ## Magic numbers -/

def MAGIC : List UInt8 := [0x04, 0x22, 0x4d, 0x18]

/-- The sixteen magic numbers of skippable frames. -/
def skippableMagic (kind : Fin 16) : List UInt8 := leBytes 4 (0x184d2a50 + kind)

def frameMagics : List (List UInt8) := MAGIC :: (List.finRange 16).map skippableMagic

/-- What may follow the frames: nothing, or bytes that neither begin with a magic number nor are cut off
in the middle of one. -/
def IsTail (tail : List UInt8) : Prop :=
  tail = [] ∨ ∀ m ∈ frameMagics, ¬ m <+: tail ∧ ¬ tail <+: m

instance (tail : List UInt8) : Decidable (IsTail tail) := inferInstanceAs (Decidable (_ ∨ _))

/-! ## Frames -/

structure Descriptor where
  independent : Bool
  blockChecksum : Bool
  contentSize : Option UInt64
  contentChecksum : Bool
  dictionary : Option UInt32
  blockMaxId : Fin 4

namespace Descriptor

variable (d : Descriptor)

/-- 64 KiB, 256 KiB, 1 MiB or 4 MiB. -/
def blockMax : Nat := 64 * 1024 * 4 ^ (d.blockMaxId : Nat)

def flags : UInt8 :=
  .ofNat (64 + 32 * d.independent.toNat + 16 * d.blockChecksum.toNat +
    8 * d.contentSize.isSome.toNat + 4 * d.contentChecksum.toNat + d.dictionary.isSome.toNat)

def bd : UInt8 := .ofNat (16 * (4 + d.blockMaxId))

def sizeField : List UInt8 := d.contentSize.elim [] fun size => leBytes 8 size.toNat

def dictionaryField : List UInt8 := d.dictionary.elim [] fun id => leBytes 4 id.toNat

/-- What the checksum of the descriptor is taken of. -/
def body : List UInt8 := d.flags :: d.bd :: (d.sizeField ++ d.dictionaryField)

/-- The magic number, the descriptor and its checksum. -/
def encode (xxh32 : Xxh32) : List UInt8 := MAGIC ++ (d.body ++ [(xxh32 d.body >>> 8).toUInt8])

end Descriptor

/-- A block in a frame with the descriptor. An empty block is a stored one: a length of zero without
the flag is the end mark. -/
structure Block (d : Descriptor) where
  stored : Bool
  payload : List UInt8
  checksum : List UInt8
  payload_length : payload.length ≤ d.blockMax
  stored_of_empty : payload = [] → stored = true
  checksum_length : checksum.length = if d.blockChecksum then 4 else 0

namespace Block

variable {d : Descriptor} (b : Block d)

def length : Nat := b.payload.length + 2 ^ 31 * b.stored.toNat

def encode : List UInt8 := leBytes 4 b.length ++ (b.payload ++ b.checksum)

end Block

def endMark : List UInt8 := leBytes 4 0

structure Frame where
  descriptor : Descriptor
  blocks : List (Block descriptor)
  checksum : List UInt8
  checksum_length : checksum.length = if descriptor.contentChecksum then 4 else 0

def Frame.encode (xxh32 : Xxh32) (f : Frame) : List UInt8 :=
  f.descriptor.encode xxh32 ++ (f.blocks.flatMap Block.encode ++ (endMark ++ f.checksum))

structure SkippableFrame where
  kind : Fin 16
  payload : List UInt8
  payload_length : payload.length < 2 ^ 32

def SkippableFrame.encode (f : SkippableFrame) : List UInt8 :=
  skippableMagic f.kind ++ (leBytes 4 f.payload.length ++ f.payload)

inductive Item
  | skippable (f : SkippableFrame)
  | frame (f : Frame)

namespace Item

def encode (xxh32 : Xxh32) : Item → List UInt8
  | skippable f => f.encode
  | frame f => f.encode xxh32

def frame? : Item → Option Frame
  | skippable _ => none
  | frame f => some f

end Item

/-! ## Streams -/

/-- Skippable frames, the first frame, what frames of either kind follow, and the bytes behind them. -/
structure Stream where
  lead : List SkippableFrame
  first : Frame
  more : List Item
  tail : List UInt8
  isTail : IsTail tail

namespace Stream

def items (s : Stream) : List Item := s.lead.map .skippable ++ .frame s.first :: s.more

def frames (s : Stream) : List Frame := s.items.filterMap Item.frame?

def encode (xxh32 : Xxh32) (s : Stream) : List UInt8 := s.items.flatMap (Item.encode xxh32) ++ s.tail

end Stream

/-- Any list of items with a frame begins with a first one. -/
theorem exists_first {items : List Item} (h : items.filterMap Item.frame? ≠ []) :
    ∃ (lead : List SkippableFrame) (first : Frame) (more : List Item),
      items = lead.map .skippable ++ .frame first :: more := by
  induction items with
  | nil => exact absurd rfl h
  | cons item items ih =>
    cases item with
    | frame f => exact ⟨[], f, items, rfl⟩
    | skippable f =>
      obtain ⟨lead, first, more, rfl⟩ := ih h
      exact ⟨f :: lead, first, more, rfl⟩

/-- The content sizes that the frames declare, if each declares one. -/
def declaredSize (frames : List Frame) : Option Nat :=
  if frames.all fun f => f.descriptor.contentSize.isSome then
    some (frames.map fun f => (f.descriptor.contentSize.getD 0).toNat).sum
  else none

/-- What is added up of them: the sizes in front of the first frame without one. -/
def summedSize (frames : List Frame) : Nat :=
  ((frames.takeWhile fun f => f.descriptor.contentSize.isSome).map
    fun f => (f.descriptor.contentSize.getD 0).toNat).sum

/-! ## Lengths and words -/

theorem length_endMark : endMark.length = 4 := leBytes_length 4 0

theorem Descriptor.length_sizeField (d : Descriptor) :
    d.sizeField.length = 8 * d.contentSize.isSome.toNat := by
  unfold sizeField
  cases d.contentSize <;> simp

theorem Descriptor.length_dictionaryField (d : Descriptor) :
    d.dictionaryField.length = 4 * d.dictionary.isSome.toNat := by
  unfold dictionaryField
  cases d.dictionary <;> simp

theorem Descriptor.length_encode (xxh32 : Xxh32) (d : Descriptor) :
    (d.encode xxh32).length =
      7 + 8 * d.contentSize.isSome.toNat + 4 * d.dictionary.isSome.toNat := by
  simp only [encode, body, MAGIC, List.length_append, List.length_cons, List.length_nil,
    d.length_sizeField, d.length_dictionaryField]
  omega

theorem Descriptor.blockMax_lt (d : Descriptor) : d.blockMax < 2 ^ 31 := by
  unfold blockMax
  generalize d.blockMaxId = i
  revert i
  decide

theorem Block.length_lt {d : Descriptor} (b : Block d) : b.length < 2 ^ 32 := by
  have hpayload := b.payload_length
  have hmax := d.blockMax_lt
  unfold Block.length
  cases b.stored <;> simp <;> omega

/-- No block looks like the end mark. -/
theorem Block.length_ne_zero {d : Descriptor} (b : Block d) : b.length ≠ 0 := by
  intro h
  unfold Block.length at h
  have hempty : b.payload = [] := List.eq_nil_of_length_eq_zero (by omega)
  rw [b.stored_of_empty hempty] at h
  simp at h

theorem skippableMagic_eq (kind : Fin 16) :
    skippableMagic kind = [0x50 + UInt8.ofNat kind, 0x2a, 0x4d, 0x18] := by
  revert kind
  decide

end Sunpack.Lz4
