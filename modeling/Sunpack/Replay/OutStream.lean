import Sunpack.Replay.WrittenRanges

/-!
# Writing around confirmed bytes

The output stream cuts every write into runs. Confirmed bytes are skipped, the others go to the
file writer.
-/

namespace Sunpack.Replay

open Lib

inductive HRESULT
  | S_OK
  | E_ABORT
  | E_FAIL
  | E_POINTER
  | E_OUTOFMEMORY
  | win32 (error : Nat)
deriving DecidableEq, Repr

/-- What a caller of `Write` hands over; its size is a 32-bit number. -/
structure Chunk where
  data : List UInt8
  fits : data.length < 2 ^ 32

/-- The file writer as the stream sees it. No write takes more than it was given. -/
structure Writer (σ : Type) where
  skip_written : σ → Nat → σ × HRESULT
  write : σ → List UInt8 → σ × HRESULT × Nat
  write_le : ∀ s data, (write s data).2.2 ≤ data.length

structure AsyncFileOutStream (σ : Type) where
  writer : Option σ
  /-- The previous writes of the file. -/
  file : Option WrittenRanges
  magic : List UInt8
  position : Nat

/-- One run of a write: the writer's next state, its result, and the bytes done. -/
def Writer.run {σ : Type} (w : Writer σ) (s : σ) (covered : Bool) (data : List UInt8) :
    σ × HRESULT × Nat :=
  if covered then
    let r := w.skip_written s data.length
    (r.1, r.2, if r.2 = .S_OK then data.length else 0)
  else w.write s data

theorem Writer.run_le {σ : Type} (w : Writer σ) (s : σ) (covered : Bool) (data : List UInt8) :
    (w.run s covered data).2.2 ≤ data.length := by
  rw [run]
  split_ifs with hcovered
  · show (if (w.skip_written s data.length).2 = .S_OK then data.length else 0) ≤ data.length
    split_ifs
    · exact le_rfl
    · exact Nat.zero_le _
  · exact w.write_le s data

/-- Where a write stands: the writer, the offset, the bytes consumed and the last result. -/
structure Progress (σ : Type) where
  writer : σ
  position : Nat
  consumed : Nat
  hr : HRESULT

section Loop

variable {σ : Type} (w : Writer σ) (previous : WrittenRanges) (c : Chunk)

/-- The bytes of the next run, cast to 32 bits. -/
def amount (position consumed : Nat) : Nat :=
  (previous.next position (c.data.length - consumed)).2 % 2 ^ 32

variable {previous c}

theorem amount_eq {position consumed : Nat} (h : consumed < c.data.length) :
    amount previous c position consumed =
      (previous.next position (c.data.length - consumed)).2 := by
  have hnext := (previous.next_pos position (Nat.sub_pos_of_lt h)).2
  have hfits := c.fits
  rw [amount, Nat.mod_eq_of_lt (by omega)]

theorem amount_pos {position consumed : Nat} (h : consumed < c.data.length) :
    0 < amount previous c position consumed := by
  rw [amount_eq h]
  exact (previous.next_pos position (Nat.sub_pos_of_lt h)).1

variable (previous c)

/-- The loop of `Write`. -/
def writeLoop (p : Progress σ) : Progress σ :=
  if h : p.consumed < c.data.length then
    let length := amount previous c p.position p.consumed
    let done := w.run p.writer (previous.next p.position (c.data.length - p.consumed)).1
      ((c.data.drop p.consumed).take length)
    if done.2.1 ≠ .S_OK ∨ done.2.2 ≠ length then
      ⟨done.1, (p.position + done.2.2) % 2 ^ 64, p.consumed + done.2.2, done.2.1⟩
    else
      writeLoop ⟨done.1, (p.position + length) % 2 ^ 64, p.consumed + length, done.2.1⟩
  else p
termination_by c.data.length - p.consumed
decreasing_by
  have hpos : 0 < amount previous c p.position p.consumed := amount_pos h
  omega

/-- `AsyncFileOutStream::Write`: the stream afterwards, the result and the processed size. -/
def AsyncFileOutStream.Write (s : AsyncFileOutStream σ) : AsyncFileOutStream σ × HRESULT × Nat :=
  match s.writer, s.file with
  | some writer, some previous =>
    let p := writeLoop w previous c ⟨writer, s.position, 0, .S_OK⟩
    let magic :=
      if p.consumed ≠ 0 ∧ s.magic.length < 512 then
        s.magic ++ c.data.take (min (512 - s.magic.length) p.consumed)
      else s.magic
    (⟨some p.writer, some previous, magic, p.position⟩, p.hr, p.consumed)
  | _, _ => (s, .E_FAIL, 0)

end Loop

/-! ## The cut -/

/-- The runs of a write, by asking `next` again behind each of them. -/
def runs (w : WrittenRanges) (offset size : Nat) : List (Bool × Nat) :=
  if _h : 0 < size then
    w.next offset size ::
      runs w (offset + (w.next offset size).2) (size - (w.next offset size).2)
  else []
termination_by size
decreasing_by
  have hpos : 0 < (w.next offset size).2 := (w.next_pos offset _h).1
  omega

/-- The flags of the bytes, run by run. -/
def flags (l : List (Bool × Nat)) : List Bool := l.flatMap fun run => List.replicate run.2 run.1

theorem runs_zero (w : WrittenRanges) (offset : Nat) : runs w offset 0 = [] := by
  rw [runs, dif_neg (lt_irrefl 0)]

theorem runs_pos (w : WrittenRanges) (offset : Nat) {size : Nat} (h : 0 < size) :
    runs w offset size = w.next offset size ::
      runs w (offset + (w.next offset size).2) (size - (w.next offset size).2) := by
  rw [runs, dif_pos h]

/-- The runs of a write are nonempty and as long as the write. -/
theorem runs_sum (w : WrittenRanges) (offset size : Nat) :
    (∀ run ∈ runs w offset size, 0 < run.2) ∧
      ((runs w offset size).map fun run => run.2).sum = size := by
  induction offset, size using runs.induct w with
  | case1 offset size h ih =>
    have hnext := w.next_pos offset h
    rw [runs_pos w offset h]
    refine ⟨List.forall_mem_cons.2 ⟨hnext.1, ih.1⟩, ?_⟩
    rw [List.map_cons, List.sum_cons, ih.2]
    omega
  | case2 offset size h =>
    have hzero : size = 0 := by omega
    rw [hzero, runs_zero]
    exact ⟨by simp, rfl⟩

theorem replicate_eq_map {f : Nat → Bool} {b : Bool} {n : Nat} (h : ∀ k < n, f k = b) :
    List.replicate n b = (List.range n).map f := by
  apply List.ext_getElem
  · simp
  · intro k hk _
    rw [List.getElem_replicate, List.getElem_map, List.getElem_range,
      h k (by simpa using hk)]

/-- Byte by byte, the runs say what is covered. -/
theorem flags_runs {w : WrittenRanges} (h : w.WellFormed) {holds : Nat → Bool}
    (hholds : ∀ x, holds x = true ↔ x ∈ w.covers) (offset size : Nat) :
    flags (runs w offset size) = (List.range size).map fun k => holds (offset + k) := by
  induction offset, size using runs.induct w with
  | case1 offset size hpos ih =>
    obtain ⟨n, hn⟩ : ∃ n, n = (w.next offset size).2 := ⟨_, rfl⟩
    have hnext := w.next_pos offset hpos
    have huniform : ∀ k < n, holds (offset + k) = (w.next offset size).1 := by
      intro k hk
      rw [Bool.eq_iff_iff, hholds]
      exact (WrittenRanges.next_uniform h (by omega) (by omega)).symm
    rw [runs_pos w offset hpos, flags, List.flatMap_cons, ← flags, ih, ← hn,
      replicate_eq_map (f := fun k => holds (offset + k)) huniform]
    obtain ⟨m, hm⟩ : ∃ m, size = n + m := ⟨size - n, by omega⟩
    rw [hm, Nat.add_sub_cancel_left, List.range_add, List.map_append, List.map_map]
    congr 1
    apply List.map_congr_left
    intro k _
    rw [Function.comp_apply, Nat.add_assoc]
  | case2 offset size hpos =>
    have hzero : size = 0 := by omega
    rw [hzero, runs_zero]
    rfl

/-! ## The writes follow the cut -/

/-- Runs handed to the writer one after another, up to the first that is not done. -/
def follow {σ : Type} (w : Writer σ) (data : List UInt8) :
    List (Bool × Nat) → Progress σ → Progress σ
  | [], p => p
  | run :: rest, p =>
    let done := w.run p.writer run.1 ((data.drop p.consumed).take run.2)
    if done.2.1 ≠ .S_OK ∨ done.2.2 ≠ run.2 then
      ⟨done.1, (p.position + done.2.2) % 2 ^ 64, p.consumed + done.2.2, done.2.1⟩
    else
      follow w data rest ⟨done.1, (p.position + run.2) % 2 ^ 64, p.consumed + run.2, done.2.1⟩

theorem writeLoop_eq_follow {σ : Type} (w : Writer σ) {previous : WrittenRanges}
    (h : previous.WellFormed) (c : Chunk) (p : Progress σ) (hposition : p.position < 2 ^ 64) :
    writeLoop w previous c p =
      follow w c.data (runs previous p.position (c.data.length - p.consumed)) p := by
  induction p using writeLoop.induct w previous c with
  | case1 p hlt length done hstop =>
    have hlength : length = (previous.next p.position (c.data.length - p.consumed)).2 :=
      amount_eq hlt
    rw [writeLoop, dif_pos hlt, runs_pos previous p.position (Nat.sub_pos_of_lt hlt), follow,
      ← hlength]
    exact (if_pos hstop).trans (if_pos hstop).symm
  | case2 p hlt length done hgo ih =>
    have hlength : length = (previous.next p.position (c.data.length - p.consumed)).2 :=
      amount_eq hlt
    rw [writeLoop, dif_pos hlt, runs_pos previous p.position (Nat.sub_pos_of_lt hlt), follow,
      ← hlength]
    refine (if_neg hgo).trans (Eq.trans ?_ (if_neg hgo).symm)
    rw [ih (Nat.mod_lt _ (by norm_num))]
    show follow w c.data (runs previous ((p.position + length) % 2 ^ 64)
      (c.data.length - (p.consumed + length))) _ = _
    rcases Nat.lt_or_ge length (c.data.length - p.consumed) with hshort | hall
    · have hnext := WrittenRanges.next_lt h (by rwa [← hlength])
      rw [← hlength] at hnext
      rw [Nat.mod_eq_of_lt hnext, Nat.sub_sub]
    · have hzero : c.data.length - p.consumed - length = 0 := by omega
      rw [← Nat.sub_sub, hzero, runs_zero, runs_zero]
  | case3 p hge =>
    have hzero : c.data.length - p.consumed = 0 := by omega
    rw [writeLoop, dif_neg hge, hzero, runs_zero]
    rfl

/-- The runs never take more than the data holds, so no counter wraps. -/
theorem follow_le {σ : Type} (w : Writer σ) (data : List UInt8) (l : List (Bool × Nat))
    (p : Progress σ) (h : p.consumed + (l.map fun run => run.2).sum ≤ data.length) :
    (follow w data l p).consumed ≤ data.length := by
  induction l generalizing p with
  | nil =>
    show p.consumed ≤ data.length
    exact le_trans (Nat.le_add_right _ _) h
  | cons run rest ih =>
    rw [List.map_cons, List.sum_cons] at h
    have hdone := w.run_le p.writer run.1 ((data.drop p.consumed).take run.2)
    rw [List.length_take] at hdone
    unfold follow
    show (if _ then _ else _ : Progress σ).consumed ≤ data.length
    split_ifs with hstop
    · show p.consumed + _ ≤ data.length
      omega
    · exact ih _ (by simp only; omega)

theorem Write_eq {σ : Type} (w : Writer σ) {previous : WrittenRanges} (h : previous.WellFormed)
    (c : Chunk) (s : σ) (magic : List UInt8) (position : UInt64) :
    let p := follow w c.data (runs previous position.toNat c.data.length)
      ⟨s, position.toNat, 0, .S_OK⟩
    ∃ magic', AsyncFileOutStream.Write w c ⟨some s, some previous, magic, position.toNat⟩ =
      (⟨some p.writer, some previous, magic', p.position⟩, p.hr, p.consumed) ∧
        p.consumed ≤ c.data.length := by
  intro p
  have hloop : writeLoop w previous c ⟨s, position.toNat, 0, .S_OK⟩ = p :=
    writeLoop_eq_follow w h c ⟨s, position.toNat, 0, .S_OK⟩ position.toNat_lt
  have hle : p.consumed ≤ c.data.length := by
    apply follow_le
    rw [(runs_sum previous position.toNat c.data.length).2, Nat.zero_add]
  rw [← hloop] at hle ⊢
  exact ⟨_, rfl, hle⟩

open WrittenRanges in
/-- The ranges are the union of what was added: their form, their size, the runs they answer with,
and the cut of every write, which the stream follows. -/
theorem writtenRanges_union (adds : List Interval) :
    let w := addAll adds
    (Spaced w.ranges ∧ ∀ range ∈ w.ranges, w.prefixEnd < range.1) ∧
      (∀ x, x ∈ w.covers ↔ ∃ a ∈ adds, x ∈ Set.Ico a.begin a.stop) ∧
      w.bytes = {x | ∃ a ∈ adds, x ∈ Set.Ico a.begin a.stop}.ncard ∧
      (∀ offset size, 0 < size →
        1 ≤ (w.next offset size).2 ∧ (w.next offset size).2 ≤ size ∧
          ∀ x, offset ≤ x → x < offset + (w.next offset size).2 →
            added adds x = (w.next offset size).1) ∧
      (∀ offset size, (∀ run ∈ runs w offset size, 0 < run.2) ∧
        ((runs w offset size).map fun run => run.2).sum = size ∧
          flags (runs w offset size) = (List.range size).map fun k => added adds (offset + k)) ∧
      ∀ (σ : Type) (writer : Writer σ) (c : Chunk) (s : σ) (magic : List UInt8) (position : UInt64),
        let p := follow writer c.data (runs w position.toNat c.data.length)
          ⟨s, position.toNat, 0, .S_OK⟩
        ∃ magic', AsyncFileOutStream.Write writer c ⟨some s, some w, magic, position.toNat⟩ =
          (⟨some p.writer, some w, magic', p.position⟩, p.hr, p.consumed) ∧
            p.consumed ≤ c.data.length := by
  intro w
  have hform : w.WellFormed := addAll_wellFormed adds
  have hunion : ∀ x, added adds x = true ↔ ∃ a ∈ adds, x ∈ Set.Ico a.begin a.stop := by
    intro x
    rw [added, List.any_eq_true]
    simp
  refine ⟨⟨hform.spaced, hform.beyond⟩, ?_, ?_, ?_, ?_, ?_⟩
  · intro x
    rw [← hunion, added_iff]
  · rw [addAll_bytes]
    congr 1
    ext x
    exact hunion x
  · intro offset size hsize
    obtain ⟨hpos, hle⟩ := w.next_pos offset hsize
    exact ⟨hpos, hle, fun x hoffset hx => addAll_next adds hoffset hx⟩
  · intro offset size
    obtain ⟨hpos, hsum⟩ := runs_sum w offset size
    exact ⟨hpos, hsum, flags_runs hform (added_iff adds) offset size⟩
  · intro σ writer c s magic position
    exact Write_eq writer hform c s magic position

end Sunpack.Replay
