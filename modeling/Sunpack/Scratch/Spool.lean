import Sunpack.Lib.Cursor
import Sunpack.Lib.LittleEndian

/-!
# The spool

`Spool` of `scratch.rs`: bytes in memory that move to a file once they are too many, with a position
and a length of its own; and the buffered reader in front of it. Where the bytes are is never seen in
what is read.
-/

namespace Sunpack.Scratch

open Sunpack.Lib

abbrev Bytes := List UInt8

/-- `RECORD_READ_BUFFER_BYTES` -/
def recordReadBufferBytes : Nat := 256

structure Spool where
  memory : Cursor UInt8
  file : Option (Cursor UInt8)
  position : Nat
  length : Nat

namespace Spool

def empty : Spool := ⟨Cursor.empty, none, 0, 0⟩

/-- The memory, or the file once there is one. -/
def cursor (s : Spool) : Cursor UInt8 := s.file.getD s.memory

def setCursor (s : Spool) (c : Cursor UInt8) : Spool :=
  match s.file with
  | some _ => { s with file := some c }
  | none => { s with memory := c }

/-- The bytes go to a file, at the same position. -/
def spill (s : Spool) : Spool :=
  match s.file with
  | some _ => s
  | none => { s with memory := Cursor.empty, file := some s.memory }

def write (memoryBytes : Nat) (s : Spool) (part : Bytes) : Spool :=
  let s :=
    if s.file.isNone && decide (memoryBytes < s.memory.position + part.length) then s.spill else s
  { s.setCursor (s.cursor.write 0 part) with
    position := s.position + part.length
    length := max s.length (s.position + part.length) }

/-- A read of up to `n` bytes. -/
def read (s : Spool) (n : Nat) : Bytes × Spool :=
  let out := s.cursor.read n
  (out.1, { s.setCursor out.2 with position := s.position + out.1.length })

def seekStart (s : Spool) (n : Nat) : Spool := { s.setCursor (s.cursor.seek n) with position := n }

/-- A spool whose position is its length does not seek. -/
def seekEnd (s : Spool) : Spool :=
  if s.position = s.length then s else s.seekStart s.cursor.items.length

def readExact (s : Spool) (n : Nat) : Option (Bytes × Spool) :=
  if (s.read n).1.length < n then none else some (s.read n)

def finish (s : Spool) : Bytes := s.cursor.items

/-! ## What a spool is -/

/-- The position and the length that the spool keeps are those of its bytes. -/
structure Is (s : Spool) (c : Cursor UInt8) : Prop where
  cursor : s.cursor = c
  position : s.position = c.position
  length : s.length = c.items.length

theorem is_empty : empty.Is Cursor.empty := ⟨rfl, rfl, rfl⟩

theorem cursor_setCursor (s : Spool) (c : Cursor UInt8) : (s.setCursor c).cursor = c := by
  unfold setCursor cursor
  cases s.file <;> rfl

theorem length_setCursor (s : Spool) (c : Cursor UInt8) : (s.setCursor c).length = s.length := by
  unfold setCursor
  cases s.file <;> rfl

theorem Is.spill {s : Spool} {c : Cursor UInt8} (h : s.Is c) : s.spill.Is c := by
  obtain ⟨hcursor, hposition, hlength⟩ := h
  unfold Spool.spill
  unfold Spool.cursor at hcursor
  cases hfile : s.file with
  | some f => exact ⟨by rw [← hcursor]; rfl, hposition, hlength⟩
  | none =>
    rw [hfile] at hcursor
    exact ⟨hcursor, hposition, hlength⟩

theorem Is.write {s : Spool} {c : Cursor UInt8} (h : s.Is c) (memoryBytes : Nat) (part : Bytes) :
    (s.write memoryBytes part).Is (c.write 0 part) := by
  have hwrite : ∀ s : Spool, s.Is c →
      ({ s.setCursor (s.cursor.write 0 part) with
          position := s.position + part.length
          length := max s.length (s.position + part.length) } : Spool).Is (c.write 0 part) := by
    intro s hs
    refine ⟨?_, ?_, ?_⟩
    · rw [← hs.cursor]
      exact cursor_setCursor s _
    · show s.position + part.length = c.position + part.length
      rw [hs.position]
    · show max s.length (s.position + part.length) = (overwrite 0 c.items c.position part).length
      rw [length_overwrite, hs.length, hs.position]
  unfold Spool.write
  split_ifs
  · exact hwrite s.spill h.spill
  · exact hwrite s h

theorem Is.read {s : Spool} {c : Cursor UInt8} (h : s.Is c) (n : Nat) :
    (s.read n).1 = (c.read n).1 ∧ (s.read n).2.Is (c.read n).2 := by
  obtain ⟨rfl, hposition, hlength⟩ := h
  refine ⟨rfl, cursor_setCursor s _, ?_, ?_⟩
  · show s.position + _ = s.cursor.position + _
    rw [hposition]
    rfl
  · show (s.setCursor _).length = _
    rw [length_setCursor, hlength]
    rfl

theorem Is.seekStart {s : Spool} {c : Cursor UInt8} (h : s.Is c) (n : Nat) :
    (s.seekStart n).Is (c.seek n) := by
  obtain ⟨rfl, hposition, hlength⟩ := h
  refine ⟨cursor_setCursor s _, rfl, ?_⟩
  show (s.setCursor _).length = _
  rw [length_setCursor, hlength]
  rfl

theorem Is.seekEnd {s : Spool} {c : Cursor UInt8} (h : s.Is c) :
    s.seekEnd.Is (c.seek c.items.length) := by
  unfold Spool.seekEnd
  split_ifs with hend
  · have hseek : c.seek c.items.length = c := by
      unfold Cursor.seek
      rw [← h.length, ← hend, h.position]
    rw [hseek]
    exact h
  · rw [h.cursor]
    exact h.seekStart _

theorem Is.finish {s : Spool} {c : Cursor UInt8} (h : s.Is c) : s.finish = c.items := by
  unfold Spool.finish
  rw [h.cursor]

/-- What is appended to a spool. -/
theorem Is.append {s : Spool} {bytes : Bytes} (h : s.Is ⟨bytes, bytes.length⟩)
    (memoryBytes : Nat) (part : Bytes) :
    (s.write memoryBytes part).Is ⟨bytes ++ part, (bytes ++ part).length⟩ := by
  have hwrite := h.write memoryBytes part
  rwa [Cursor.write_end rfl] at hwrite

end Spool

/-! ## The buffered reader -/

/-- `BufReader` in front of a spool. -/
structure Reader where
  spool : Spool
  buffer : Bytes

namespace Reader

def empty : Reader := ⟨Spool.empty, []⟩

/-- The position of the next byte. -/
def start (r : Reader) : Nat := r.spool.position - r.buffer.length

def seekStart (r : Reader) (n : Nat) : Reader := ⟨r.spool.seekStart n, []⟩

def seekEnd (r : Reader) : Reader := ⟨r.spool.seekEnd, []⟩

def consume (r : Reader) (n : Nat) : Reader := { r with buffer := r.buffer.drop n }

/-- What the buffer does not have is read at once, past the buffer if it does not fit into it. -/
def readExact (r : Reader) (n : Nat) : Option (Bytes × Reader) :=
  if n ≤ r.buffer.length then some (r.buffer.take n, r.consume n)
  else
    let missing := n - r.buffer.length
    let out := r.spool.read (max missing recordReadBufferBytes)
    if out.1.length < missing then none
    else some (r.buffer ++ out.1.take missing, ⟨out.2, out.1.drop missing⟩)

/-- The buffer has the bytes in front of the position of the spool. -/
structure Over (r : Reader) (bytes : Bytes) : Prop where
  spool : r.spool.Is ⟨bytes, r.spool.position⟩
  within : r.spool.position ≤ bytes.length
  ahead : r.buffer.length ≤ r.spool.position
  buffer : r.buffer = slice bytes (r.spool.position - r.buffer.length) r.buffer.length

theorem over_empty : empty.Over [] := ⟨Spool.is_empty, le_rfl, le_rfl, rfl⟩

variable {r : Reader} {bytes : Bytes}

theorem Over.seekStart (h : r.Over bytes) {n : Nat} (hn : n ≤ bytes.length) :
    (r.seekStart n).Over bytes ∧ (r.seekStart n).start = n :=
  ⟨⟨h.spool.seekStart n, hn, Nat.zero_le _, (slice_zero _ _).symm⟩, rfl⟩

/-- At the end there is nothing in the buffer, and what is written is appended. -/
theorem Over.seekEnd (h : r.Over bytes) : r.seekEnd.spool.Is ⟨bytes, bytes.length⟩ :=
  h.spool.seekEnd

theorem over_of_end {s : Spool} (h : s.Is ⟨bytes, bytes.length⟩) : (⟨s, []⟩ : Reader).Over bytes where
  spool := by
    show s.Is ⟨bytes, s.position⟩
    rw [h.position]
    exact h
  within := by
    show s.position ≤ bytes.length
    rw [h.position]
  ahead := Nat.zero_le _
  buffer := (slice_zero _ _).symm

theorem Over.consume (h : r.Over bytes) {n : Nat} (hn : n ≤ r.buffer.length) :
    (r.consume n).Over bytes ∧ (r.consume n).start = r.start + n := by
  have hahead := h.ahead
  have hlength : (r.consume n).buffer.length = r.buffer.length - n := List.length_drop
  refine ⟨⟨h.spool, h.within, ?_, ?_⟩, ?_⟩
  · rw [hlength]
    show r.buffer.length - n ≤ r.spool.position
    omega
  · rw [hlength]
    show r.buffer.drop n = slice bytes (r.spool.position - (r.buffer.length - n)) _
    conv_lhs => rw [h.buffer]
    rw [drop_slice]
    congr 1
    omega
  · unfold Reader.start
    rw [hlength]
    show r.spool.position - (r.buffer.length - n) = _
    omega

/-- The buffer goes on where the spool ends. -/
theorem Over.buffer_append (h : r.Over bytes) {n : Nat} (hn : r.buffer.length ≤ n) :
    r.buffer ++ slice bytes r.spool.position (n - r.buffer.length) = slice bytes r.start n := by
  have hahead := h.ahead
  have hposition : r.spool.position = r.start + r.buffer.length := by
    unfold Reader.start
    omega
  have hsplit : n = r.buffer.length + (n - r.buffer.length) := by omega
  conv_rhs => rw [hsplit, ← slice_append_slice]
  rw [← hposition]
  congr 1
  exact h.buffer

/-- What was read ahead of `missing` bytes stands in front of the new position. -/
theorem Over.readAhead (h : r.Over bytes) {missing wanted : Nat}
    (hgot : missing ≤ (r.spool.read wanted).1.length) :
    (⟨(r.spool.read wanted).2, (r.spool.read wanted).1.drop missing⟩ : Reader).Over bytes ∧
      (⟨(r.spool.read wanted).2, (r.spool.read wanted).1.drop missing⟩ : Reader).start =
        r.spool.position + missing := by
  obtain ⟨hbytes, his⟩ := h.spool.read wanted
  have hread : (r.spool.read wanted).1 = slice bytes r.spool.position wanted := hbytes
  have hposition : (r.spool.read wanted).2.position =
      r.spool.position + (r.spool.read wanted).1.length := rfl
  have hlength : (r.spool.read wanted).1.length = min wanted (bytes.length - r.spool.position) := by
    rw [hread, length_slice]
  have hwithin := h.within
  have hrest : ((r.spool.read wanted).1.drop missing).length =
      (r.spool.read wanted).1.length - missing := List.length_drop
  refine ⟨⟨?_, ?_, ?_, ?_⟩, ?_⟩
  · show (r.spool.read wanted).2.Is ⟨bytes, (r.spool.read wanted).2.position⟩
    rw [his.position]
    exact his
  · show (r.spool.read wanted).2.position ≤ bytes.length
    omega
  · show ((r.spool.read wanted).1.drop missing).length ≤ (r.spool.read wanted).2.position
    omega
  · show (r.spool.read wanted).1.drop missing = slice bytes ((r.spool.read wanted).2.position -
      ((r.spool.read wanted).1.drop missing).length) ((r.spool.read wanted).1.drop missing).length
    have hindex : (r.spool.read wanted).2.position -
        ((r.spool.read wanted).1.drop missing).length = r.spool.position + missing := by omega
    rw [hindex, hread, drop_slice, slice_length_slice]
  · show (r.spool.read wanted).2.position - ((r.spool.read wanted).1.drop missing).length = _
    omega

/-- Reading gives the next bytes, whether they are in the buffer or not. -/
theorem Over.readExact (h : r.Over bytes) {n : Nat} (hn : r.start + n ≤ bytes.length) :
    ∃ r', r.readExact n = some (slice bytes r.start n, r') ∧ r'.Over bytes ∧
      r'.start = r.start + n := by
  have hahead := h.ahead
  unfold Reader.readExact
  by_cases hbuffered : n ≤ r.buffer.length
  · obtain ⟨hover, hstart⟩ := h.consume hbuffered
    have htake : r.buffer.take n = slice bytes r.start n := by
      conv_lhs => rw [h.buffer]
      exact take_slice hbuffered
    rw [if_pos hbuffered, htake]
    exact ⟨r.consume n, rfl, hover, hstart⟩
  · have hnext : r.start = r.spool.position - r.buffer.length := rfl
    have hread : (r.spool.read (max (n - r.buffer.length) recordReadBufferBytes)).1 =
        slice bytes r.spool.position (max (n - r.buffer.length) recordReadBufferBytes) :=
      (h.spool.read _).1
    have hgot : n - r.buffer.length ≤
        (r.spool.read (max (n - r.buffer.length) recordReadBufferBytes)).1.length := by
      rw [hread, length_slice]
      omega
    obtain ⟨hover, hstart⟩ := h.readAhead hgot
    have hout : r.buffer ++ (r.spool.read (max (n - r.buffer.length) recordReadBufferBytes)).1.take
        (n - r.buffer.length) = slice bytes r.start n := by
      rw [hread, take_slice (le_max_left _ _)]
      exact h.buffer_append (by omega)
    rw [if_neg hbuffered]
    simp only
    rw [if_neg (by omega), hout]
    refine ⟨_, rfl, hover, ?_⟩
    rw [hstart]
    omega

end Reader

end Sunpack.Scratch
