import Sunpack.ArchiveState.SegmentReader

/-!
# The flat input

A reader of segments reads their bytes one after another: `read_exact_at` returns the slice of this
list, as long as the end of the range has 64 bits.
-/

namespace Sunpack.ArchiveState

open Lib

def Segment.bytes (files : Files) (s : Segment) : List UInt8 :=
  (List.range s.len).map fun i => files s.path (s.start + i)

def flatten (files : Files) (segments : List Segment) : List UInt8 :=
  segments.flatMap (Segment.bytes files)

/-- `length` bytes from an offset on. -/
def slice (bytes : List UInt8) (offset length : Nat) : List UInt8 := (bytes.drop offset).take length

theorem length_slice {bytes : List UInt8} {offset length : Nat} (h : offset + length ≤ bytes.length) :
    (slice bytes offset length).length = length := by
  rw [slice, List.length_take, List.length_drop]
  omega

theorem slice_add (bytes : List UInt8) (offset first rest : Nat) :
    slice bytes offset (first + rest) =
      slice bytes offset first ++ slice bytes (offset + first) rest := by
  rw [slice, slice, slice, List.take_add, List.drop_drop]

/-- A slice of a slice. -/
theorem slice_slice (bytes : List UInt8) (offset : Nat) {length at' take : Nat}
    (h : at' + take ≤ length) :
    slice (slice bytes offset length) at' take = slice bytes (offset + at') take := by
  rw [slice, slice, slice, List.drop_take, List.take_take, List.drop_drop, min_eq_left (by omega)]

theorem length_flatten (files : Files) (segments : List Segment) :
    (flatten files segments).length = (segments.map (·.len)).sum := by
  rw [flatten, List.length_flatMap]
  congr 1
  refine List.map_congr_left fun s _ => ?_
  rw [Segment.bytes, List.length_map, List.length_range]

namespace SegmentReader

def input (r : SegmentReader) : List UInt8 := flatten r.files r.segments

/-- The files reach to the ends of their ranges, and their sizes have 64 bits. -/
def Covered (r : SegmentReader) (size : String → Nat) : Prop :=
  ∀ s ∈ r.segments, s.start + s.len ≤ size s.path ∧ size s.path < 2 ^ 64

theorem total_eq (r : SegmentReader) : r.total = min r.input.length (2 ^ 64 - 1) := by
  have hfold := foldl_sat64 (r.segments.map (·.len)) (show 0 < 2 ^ 64 by norm_num)
  rw [List.foldl_map, Nat.zero_add] at hfold
  rw [input, length_flatten, ← hfold]
  rfl

/-- Behind the place that was located lies the rest of its segment. -/
theorem locateIn_flat (files : Files) {segments : List Segment} {total offset within : Nat}
    {s : Segment} (hle : total ≤ offset) (hlt : offset < 2 ^ 64 - 1)
    (h : locateIn (startsFrom total segments) offset = some (s, within)) :
    s ∈ segments ∧ ∃ rest, (flatten files segments).drop (offset - total) =
      (s.bytes files).drop within ++ rest := by
  induction segments generalizing total with
  | nil => cases h
  | cons s' segments ih =>
    have hlength : (s'.bytes files).length = s'.len := by
      rw [Segment.bytes, List.length_map, List.length_range]
    rw [flatten, List.flatMap_cons, ← flatten]
    by_cases hin : offset < sat64 total s'.len
    · rw [locateIn_cons_of_lt hle hin, Option.some.injEq, Prod.mk.injEq] at h
      obtain ⟨rfl, rfl⟩ := h
      have hsat := sat64_le total s'.len
      exact ⟨List.mem_cons_self, _, List.drop_append_of_le_length (by omega)⟩
    · have hsat : sat64 total s'.len = total + s'.len := by
        rw [sat64] at hin ⊢
        omega
      rw [locateIn_cons_of_le hle (not_lt.1 hin)] at h
      obtain ⟨hmem, rest, hrest⟩ := ih (not_lt.1 hin) h
      refine ⟨List.mem_cons_of_mem _ hmem, rest, ?_⟩
      rw [hsat] at hrest hin
      rw [← hrest, List.drop_append, List.drop_eq_nil_of_le (by omega), List.nil_append, hlength]
      congr 1
      omega

variable {r : SegmentReader} {size : String → Nat}

theorem Covered.segmentBytes (h : r.Covered size) {s : Segment} (hs : s ∈ r.segments)
    {within take : Nat} (hin : within + take ≤ s.len) :
    r.segmentBytes s within take = ((s.bytes r.files).drop within).take take := by
  obtain ⟨hend, hsize⟩ := h s hs
  rw [SegmentReader.segmentBytes, sat64_of_lt (by omega)]
  apply List.ext_getElem
  · simp [Segment.bytes]
    omega
  · intro i hi hi'
    simp [Segment.bytes, Nat.add_assoc]

theorem Covered.readLoop (h : r.Covered size) (cursor remaining : Nat)
    (hin : cursor + remaining ≤ r.total) :
    r.readLoop cursor remaining = .ok (slice r.input cursor remaining) := by
  induction remaining using Nat.strong_induction_on generalizing cursor with
  | _ remaining ih =>
    have htotal := r.total_lt
    rw [SegmentReader.readLoop]
    by_cases hr : 0 < remaining
    · rw [dif_pos hr]
      obtain ⟨s, within, hlocate⟩ := locate_isSome (show cursor < r.total by omega)
      have hwithin := within_lt hlocate
      have hflat := hlocate
      rw [locate, if_neg (by omega)] at hflat
      obtain ⟨hs, rest, hrest⟩ := locateIn_flat r.files (Nat.zero_le _) (by omega) hflat
      split
      · rename_i hnone
        rw [hlocate] at hnone
        cases hnone
      · rename_i s' within' hsome
        obtain ⟨rfl, rfl⟩ := Prod.mk.inj (Option.some.inj (hlocate.symm.trans hsome))
        obtain ⟨take, ht⟩ : ∃ n, n = min (s.len - within) remaining := ⟨_, rfl⟩
        have hnext : sat64 cursor take = cursor + take := sat64_of_lt (by omega)
        have hsplit : remaining = take + (remaining - take) := by omega
        have hfirst : slice r.input cursor take = r.segmentBytes s within take := by
          have hlength : ((s.bytes r.files).drop within).length = s.len - within := by
            rw [List.length_drop, Segment.bytes, List.length_map, List.length_range]
          rw [Nat.sub_zero] at hrest
          rw [h.segmentBytes hs (by omega), slice, input, hrest,
            List.take_append_of_le_length (by omega)]
        have hwhole : slice r.input cursor remaining =
            r.segmentBytes s within take ++ slice r.input (cursor + take) (remaining - take) := by
          rw [← hfirst, ← slice_add, ← hsplit]
        simp only [← ht, hnext]
        rw [ih (remaining - take) (by omega) (cursor + take) (by omega), hwhole]
        rfl
    · rw [dif_neg hr, Nat.eq_zero_of_not_pos hr, slice, List.take_zero]

/-- A read returns its slice of the flat input, if its end lies inside and has 64 bits. -/
theorem Covered.readExactAt (h : r.Covered size) (offset length : Nat) :
    r.readExactAt offset length =
      if 2 ^ 64 ≤ offset + length then .error .overflow
      else if r.input.length < offset + length then .error .exceeds
      else .ok (slice r.input offset length) := by
  have htotal := r.total_eq
  split_ifs with hoverflow hexceeds
  · exact readExactAt_overflow hoverflow
  · rw [SegmentReader.readExactAt, checked64_of_lt (by omega)]
    exact if_pos (by omega)
  · rw [SegmentReader.readExactAt, checked64_of_lt (by omega)]
    simp only
    rw [if_neg (by omega)]
    exact h.readLoop offset length (by omega)

end SegmentReader

end Sunpack.ArchiveState
