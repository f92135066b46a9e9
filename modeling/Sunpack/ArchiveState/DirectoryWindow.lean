import Sunpack.ArchiveState.FlatInput

/-!
# The directory window

`DirectoryWindow`: the walk through the central directory reads through a window of up to 64 KiB,
which is filled anew where a read leaves it. A window always holds a slice of the flat input, so the
reads return what direct reads would.
-/

namespace Sunpack.ArchiveState

open Lib

structure DirectoryWindow where
  start : Nat := 0
  bytes : List UInt8 := []

inductive WindowError
  | boundary
  | read (error : ReadError)
deriving DecidableEq, Repr

def WindowError.message : WindowError → String
  | .boundary => "ZIP directory range exceeds its boundary"
  | .read error => error.message

namespace DirectoryWindow

def windowSize : Nat := 64 * 1024

/-- `Vec::resize` with zeros. -/
def resize (bytes : List UInt8) (length : Nat) : List UInt8 :=
  bytes.take length ++ List.replicate (length - bytes.length) 0

/-- The window at an offset. A reader that fails leaves the resized bytes behind. -/
def fill (w : DirectoryWindow) (r : SegmentReader) (offset stop : Nat) :
    Except WindowError Unit × DirectoryWindow :=
  let length := min (stop - offset) windowSize
  match r.readExactAt offset length with
  | .error e => (.error (.read e), ⟨offset, resize w.bytes length⟩)
  | .ok bytes => (.ok (), ⟨offset, bytes⟩)

/-- The window that holds the offset. -/
def seek (w : DirectoryWindow) (r : SegmentReader) (offset stop : Nat) :
    Except WindowError Unit × DirectoryWindow :=
  if offset < w.start ∨ w.start + w.bytes.length ≤ offset then w.fill r offset stop else (.ok (), w)

/-- The loop: `remaining` bytes from the offset on. A window without bytes there would be read
again and again; the boundary check keeps that from happening. -/
def readLoop (w : DirectoryWindow) (r : SegmentReader) (offset remaining stop : Nat) :
    Except WindowError (List UInt8) × DirectoryWindow :=
  if remaining = 0 then (.ok [], w)
  else
    let sought := w.seek r offset stop
    match sought.1 with
    | .error e => (.error e, sought.2)
    | .ok _ =>
      let here := sought.2.bytes.drop (offset - sought.2.start)
      let take := min remaining here.length
      if take = 0 then (.error .boundary, sought.2)
      else
        let rest := readLoop sought.2 r (offset + take) (remaining - take) stop
        (rest.1.map (here.take take ++ ·), rest.2)
termination_by remaining
decreasing_by
  show remaining - take < remaining
  omega

def readExactAt (w : DirectoryWindow) (r : SegmentReader) (offset length stop : Nat) :
    Except WindowError (List UInt8) × DirectoryWindow :=
  match checked64 offset length with
  | none => (.error .boundary, w)
  | some last => if last > stop then (.error .boundary, w) else w.readLoop r offset length stop

/-- Reads one after another: offset, length and boundary. -/
def readAll (w : DirectoryWindow) (r : SegmentReader) :
    List (Nat × Nat × Nat) → List (Except WindowError (List UInt8))
  | [] => []
  | (offset, length, stop) :: reads =>
    (w.readExactAt r offset length stop).1 ::
      readAll (w.readExactAt r offset length stop).2 r reads

/-! ## A window holds a slice -/

structure Holds (w : DirectoryWindow) (r : SegmentReader) : Prop where
  inside : w.start + w.bytes.length ≤ r.total
  bytes : w.bytes = slice r.input w.start w.bytes.length

variable {w : DirectoryWindow} {r : SegmentReader} {size : String → Nat}

theorem holds_empty (r : SegmentReader) : Holds {} r where
  inside := Nat.zero_le _
  bytes := rfl

/-- A read inside the total succeeds. -/
theorem readExactAt_inside (hcover : r.Covered size) {offset length : Nat}
    (h : offset + length ≤ r.total) : r.readExactAt offset length = .ok (slice r.input offset length) := by
  have htotal := r.total_eq
  rw [hcover.readExactAt, if_neg (by omega), if_neg (by omega)]

theorem fill_inside (hcover : r.Covered size) (w : DirectoryWindow) {offset stop : Nat}
    (hoffset : offset < stop) (hstop : stop ≤ r.total) :
    w.fill r offset stop =
      (.ok (), ⟨offset, slice r.input offset (min (stop - offset) windowSize)⟩) := by
  unfold fill
  simp only
  rw [readExactAt_inside hcover (by omega)]

/-- After seeking the window holds the bytes from the offset on. -/
theorem Holds.seek (h : w.Holds r) (hcover : r.Covered size) {offset stop : Nat}
    (hoffset : offset < stop) (hstop : stop ≤ r.total) :
    ∃ sought, w.seek r offset stop = (.ok (), sought) ∧ sought.Holds r ∧
      sought.start ≤ offset ∧ offset < sought.start + sought.bytes.length := by
  unfold DirectoryWindow.seek
  split_ifs with hout
  · have htotal := r.total_eq
    have hlength : (slice r.input offset (min (stop - offset) windowSize)).length =
        min (stop - offset) windowSize := length_slice (by omega)
    have hwindow : windowSize = 65536 := rfl
    refine ⟨_, fill_inside hcover w hoffset hstop, ⟨?_, ?_⟩, le_refl _, ?_⟩ <;>
      simp only [hlength] <;> omega
  · exact ⟨w, rfl, h, by omega, by omega⟩

theorem Holds.readLoop (hcover : r.Covered size) (offset remaining : Nat) {stop : Nat}
    (h : w.Holds r) (hin : offset + remaining ≤ stop) (hstop : stop ≤ r.total) :
    ∃ left, w.readLoop r offset remaining stop = (.ok (slice r.input offset remaining), left) ∧
      left.Holds r := by
  induction remaining using Nat.strong_induction_on generalizing offset w with
  | _ remaining ih =>
    rw [DirectoryWindow.readLoop]
    by_cases hzero : remaining = 0
    · rw [if_pos hzero, hzero, slice, List.take_zero]
      exact ⟨w, rfl, h⟩
    · obtain ⟨sought, hsought, hholds, hstart, hend⟩ :=
        h.seek hcover (show offset < stop by omega) hstop
      obtain ⟨take, htake⟩ : ∃ n, n = min remaining (sought.bytes.length - (offset - sought.start)) :=
        ⟨_, rfl⟩
      obtain ⟨left, hleft, hholds'⟩ :=
        ih (remaining - take) (by omega) (offset + take) hholds (by omega)
      have hfirst : (sought.bytes.drop (offset - sought.start)).take take =
          slice r.input offset take := by
        have hpart := slice_slice r.input
          sought.start (show offset - sought.start + take ≤ sought.bytes.length by omega)
        rw [← hholds.bytes, slice, Nat.add_sub_cancel' hstart] at hpart
        exact hpart
      have hwhole : slice r.input offset remaining =
          slice r.input offset take ++ slice r.input (offset + take) (remaining - take) := by
        rw [← slice_add, Nat.add_sub_cancel' (by omega)]
      rw [if_neg hzero, hsought]
      simp only [List.length_drop, ← htake]
      rw [if_neg (by omega), hleft, hfirst, hwhole]
      exact ⟨left, rfl, hholds'⟩

theorem Holds.readExactAt (h : w.Holds r) (hcover : r.Covered size) {offset length stop : Nat}
    (hstop : stop ≤ r.total) :
    ∃ left, w.readExactAt r offset length stop =
        (if offset + length ≤ stop then (r.readExactAt offset length).mapError .read
          else .error .boundary, left) ∧ left.Holds r := by
  have htotal := r.total_lt
  unfold DirectoryWindow.readExactAt
  by_cases hin : offset + length ≤ stop
  · rw [checked64_of_lt (by omega), if_pos hin, readExactAt_inside hcover (by omega)]
    simp only
    rw [if_neg (by omega)]
    exact h.readLoop hcover offset length hin hstop
  · refine ⟨w, ?_, h⟩
    rw [if_neg hin]
    cases hsum : checked64 offset length with
    | none => rfl
    | some last =>
      obtain ⟨_, rfl⟩ := checked64_eq_some hsum
      exact if_pos (by omega)

/-- Reads through the window are direct reads, each within its boundary. -/
theorem Holds.readAll (h : w.Holds r) (hcover : r.Covered size) {reads : List (Nat × Nat × Nat)}
    (hstop : ∀ read ∈ reads, read.2.2 ≤ r.total) :
    w.readAll r reads = reads.map fun read =>
      if read.1 + read.2.1 ≤ read.2.2 then (r.readExactAt read.1 read.2.1).mapError .read
      else .error .boundary := by
  induction reads generalizing w with
  | nil => rfl
  | cons read reads ih =>
    obtain ⟨offset, length, stop⟩ := read
    obtain ⟨left, hread, hholds⟩ := h.readExactAt hcover (hstop _ List.mem_cons_self)
    rw [DirectoryWindow.readAll, hread, List.map_cons,
      ih hholds fun read hmem => hstop read (List.mem_cons_of_mem _ hmem)]

end DirectoryWindow

end Sunpack.ArchiveState
