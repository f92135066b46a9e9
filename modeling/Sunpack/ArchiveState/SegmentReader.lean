import Sunpack.Lib.Sums64

/-!
# The segment reader

The logical input of an archive state: ranges of files one after another, read by logical offsets.
The ranges were cut to the sizes of their files and empty ones were dropped, so a file has the bytes
of its range; the open file that the reader caches is left out.
-/

namespace Sunpack.ArchiveState

open Lib

/-- A range of a file, not empty. -/
structure Segment where
  path : String
  start : Nat
  len : Nat
  positive : 0 < len

/-- What the files hold, by path and offset. -/
abbrev Files := String → Nat → UInt8

structure SegmentReader where
  segments : List Segment
  files : Files

/-- The errors of `read_exact_at`. -/
inductive ReadError
  | overflow
  | exceeds
  | missing
deriving DecidableEq, Repr

def ReadError.message : ReadError → String
  | .overflow => "archive state logical read offset overflow"
  | .exceeds => "archive state logical read exceeds input"
  | .missing => "archive state logical read segment is missing"

/-- The segments with their starts, from a total on. -/
def startsFrom (total : Nat) : List Segment → List (Nat × Segment)
  | [] => []
  | s :: rest => (total, s) :: startsFrom (sat64 total s.len) rest

def totalFrom (total : Nat) (segments : List Segment) : Nat :=
  segments.foldl (fun total s => sat64 total s.len) total

/-- The last of the leading entries that do not start beyond the offset, and the place in it. -/
def locateIn (starts : List (Nat × Segment)) (offset : Nat) : Option (Segment × Nat) :=
  match (starts.takeWhile fun e => e.1 ≤ offset).getLast? with
  | none => none
  | some e => if offset < sat64 e.1 e.2.len then some (e.2, offset - e.1) else none

namespace SegmentReader

def total (r : SegmentReader) : Nat := totalFrom 0 r.segments

def starts (r : SegmentReader) : List Nat := (startsFrom 0 r.segments).map (·.1)

def locate (r : SegmentReader) (offset : Nat) : Option (Segment × Nat) :=
  if offset ≥ r.total then none else locateIn (startsFrom 0 r.segments) offset

/-- The bytes of a segment from a place on. -/
def segmentBytes (r : SegmentReader) (s : Segment) (within take : Nat) : List UInt8 :=
  (List.range take).map fun i => r.files s.path (sat64 s.start within + i)

theorem within_lt_of_locateIn {starts : List (Nat × Segment)} {offset within : Nat} {s : Segment}
    (h : locateIn starts offset = some (s, within)) : within < s.len := by
  rw [locateIn] at h
  cases hlast : (starts.takeWhile fun e => e.1 ≤ offset).getLast? with
  | none => rw [hlast] at h; cases h
  | some e =>
    rw [hlast] at h
    simp only at h
    split_ifs at h with hin
    obtain ⟨rfl, rfl⟩ := Prod.mk.inj (Option.some.inj h)
    have hle := sat64_le e.1 e.2.len
    have hpos := e.2.positive
    omega

theorem within_lt {r : SegmentReader} {offset within : Nat} {s : Segment}
    (h : r.locate offset = some (s, within)) : within < s.len := by
  rw [locate] at h
  split_ifs at h
  exact within_lt_of_locateIn h

/-- The loop of `read_exact_at`: `remaining` bytes from the cursor on. -/
def readLoop (r : SegmentReader) (cursor remaining : Nat) : Except ReadError (List UInt8) :=
  if _hr : 0 < remaining then
    match _hl : r.locate cursor with
    | none => .error .missing
    | some (s, within) =>
      let take := min (s.len - within) remaining
      (r.readLoop (sat64 cursor take) (remaining - take)).map (r.segmentBytes s within take ++ ·)
  else .ok []
termination_by remaining
decreasing_by
  have hlt := within_lt _hl
  omega

def readExactAt (r : SegmentReader) (offset length : Nat) : Except ReadError (List UInt8) :=
  match checked64 offset length with
  | none => .error .overflow
  | some stop => if stop > r.total then .error .exceeds else r.readLoop offset length

/-! ## Reads inside the input succeed -/

theorem totalFrom_lt (segments : List Segment) {total : Nat} (h : total < 2 ^ 64) :
    totalFrom total segments < 2 ^ 64 := by
  induction segments generalizing total with
  | nil => exact h
  | cons s rest ih => exact ih (sat64_lt _ _)

theorem total_lt (r : SegmentReader) : r.total < 2 ^ 64 := totalFrom_lt r.segments (by norm_num)

theorem locateIn_cons_of_lt {s : Segment} {rest : List Segment} {total offset : Nat}
    (hle : total ≤ offset) (hlt : offset < sat64 total s.len) :
    locateIn (startsFrom total (s :: rest)) offset = some (s, offset - total) := by
  have hrest : (startsFrom (sat64 total s.len) rest).takeWhile (fun e => e.1 ≤ offset) = [] := by
    cases rest with
    | nil => rfl
    | cons s' rest => rw [startsFrom, List.takeWhile_cons_of_neg (by simpa using hlt)]
  rw [locateIn, startsFrom, List.takeWhile_cons_of_pos (by simpa using hle), hrest]
  exact if_pos hlt

theorem locateIn_cons_of_le {s : Segment} {rest : List Segment} {total offset : Nat}
    (hle : total ≤ offset) (hnext : sat64 total s.len ≤ offset) :
    locateIn (startsFrom total (s :: rest)) offset =
      locateIn (startsFrom (sat64 total s.len) rest) offset := by
  rw [locateIn, locateIn, startsFrom, List.takeWhile_cons_of_pos (by simpa using hle)]
  cases htake : (startsFrom (sat64 total s.len) rest).takeWhile fun e => e.1 ≤ offset with
  | nil => exact if_neg (not_lt.2 hnext)
  | cons e es => rw [List.getLast?_cons_cons]

/-- The entry that holds the offset is found. -/
theorem locateIn_isSome {segments : List Segment} {total offset : Nat} (htotal : total < 2 ^ 64)
    (hle : total ≤ offset) (hlt : offset < totalFrom total segments) :
    ∃ s within, locateIn (startsFrom total segments) offset = some (s, within) := by
  induction segments generalizing total with
  | nil => exact absurd hlt (not_lt.2 hle)
  | cons s rest ih =>
    by_cases hin : offset < sat64 total s.len
    · exact ⟨s, offset - total, locateIn_cons_of_lt hle hin⟩
    · rw [locateIn_cons_of_le hle (not_lt.1 hin)]
      exact ih (sat64_lt total s.len) (not_lt.1 hin) hlt

theorem locate_isSome {r : SegmentReader} {offset : Nat} (h : offset < r.total) :
    ∃ s within, r.locate offset = some (s, within) := by
  rw [locate, if_neg (not_le.2 h)]
  exact locateIn_isSome (by norm_num) (Nat.zero_le _) h

theorem readLoop_ok {r : SegmentReader} (cursor remaining : Nat)
    (h : cursor + remaining ≤ r.total) :
    ∃ bytes, r.readLoop cursor remaining = .ok bytes ∧ bytes.length = remaining := by
  induction remaining using Nat.strong_induction_on generalizing cursor with
  | _ remaining ih =>
    have htotal := r.total_lt
    rw [readLoop]
    by_cases hr : 0 < remaining
    · rw [dif_pos hr]
      have hcursor : cursor < r.total := by omega
      obtain ⟨s, within, hlocate⟩ := locate_isSome hcursor
      have hwithin := within_lt hlocate
      split
      · rename_i hnone
        rw [hlocate] at hnone
        cases hnone
      · rename_i s' within' hsome
        obtain ⟨rfl, rfl⟩ := Prod.mk.inj (Option.some.inj (hlocate.symm.trans hsome))
        obtain ⟨take, ht⟩ : ∃ n, n = min (s.len - within) remaining := ⟨_, rfl⟩
        have hnext : sat64 cursor take = cursor + take := sat64_of_lt (by omega)
        obtain ⟨bytes, hbytes, hlength⟩ :=
          ih (remaining - take) (by omega) (cursor + take) (by omega)
        refine ⟨r.segmentBytes s within take ++ bytes, ?_, ?_⟩
        · simp only [← ht, hnext, hbytes]
          rfl
        · rw [List.length_append, hlength, segmentBytes, List.length_map, List.length_range]
          omega
    · rw [dif_neg hr]
      exact ⟨[], rfl, by simp only [List.length_nil]; omega⟩

/-- A read succeeds if it lies inside the input. -/
theorem readExactAt_ok {r : SegmentReader} {offset length : Nat} (h : offset + length ≤ r.total) :
    ∃ bytes, r.readExactAt offset length = .ok bytes ∧ bytes.length = length := by
  have htotal := r.total_lt
  rw [readExactAt, checked64_of_lt (by omega)]
  simp only
  rw [if_neg (by omega)]
  exact readLoop_ok offset length h

/-- And only then. -/
theorem le_total_of_readExactAt {r : SegmentReader} {offset length : Nat} {bytes : List UInt8}
    (h : r.readExactAt offset length = .ok bytes) : offset + length ≤ r.total := by
  rw [readExactAt] at h
  cases hsum : checked64 offset length with
  | none => rw [hsum] at h; cases h
  | some stop =>
    rw [hsum] at h
    simp only at h
    obtain ⟨_, rfl⟩ := checked64_eq_some hsum
    split_ifs at h with hstop
    omega

theorem readExactAt_overflow {r : SegmentReader} {offset length : Nat}
    (h : 2 ^ 64 ≤ offset + length) : r.readExactAt offset length = .error .overflow := by
  rw [readExactAt, checked64, if_neg (by omega)]

end SegmentReader

end Sunpack.ArchiveState
