import Sunpack.Lib.Intervals

/-!
# Written ranges

The confirmed bytes of an output file that survive an attempt: a covered front and, behind it, a
sorted vector of ranges. Ranges are half open; the numbers are 64-bit.
-/

namespace Sunpack.Replay

open Lib

/-- An interval of 64-bit offsets. -/
structure Interval where
  begin : Nat
  stop : Nat
  ordered : begin ≤ stop
  fits : stop < 2 ^ 64

structure WrittenRanges where
  ranges : List (Nat × Nat)
  prefixEnd : Nat
deriving DecidableEq, Repr

namespace WrittenRanges

def empty : WrittenRanges := ⟨[], 0⟩

/-- The loop of `add` that takes ranges into the front. -/
def growPrefix (stop : Nat) : List (Nat × Nat) → Nat × List (Nat × Nat)
  | [] => (stop, [])
  | last :: rest =>
    if last.1 ≤ stop then growPrefix (max stop last.2) rest else (stop, last :: rest)

def add (w : WrittenRanges) (begin stop : Nat) : WrittenRanges :=
  if begin = stop then w
  else if begin ≤ w.prefixEnd then
    let grown := growPrefix (max w.prefixEnd stop) w.ranges
    ⟨grown.2, grown.1⟩
  else
    -- `lower_bound` by the ends; what the loop merges is replaced by one range
    let first := w.ranges.dropWhile fun range => range.2 < begin
    let merged := mergeInto begin stop first
    ⟨(w.ranges.takeWhile fun range => range.2 < begin) ++ merged.1 :: merged.2, w.prefixEnd⟩

/-- The next homogeneous run: covered bytes or a hole. -/
def next (w : WrittenRanges) (offset size : Nat) : Bool × Nat :=
  if offset < w.prefixEnd then (true, min size (w.prefixEnd - offset))
  else
    -- `upper_bound` by the ends
    match w.ranges.find? fun range => offset < range.2 with
    | none => (false, size)
    | some it =>
      if offset < it.1 then (false, min size (it.1 - offset)) else (true, min size (it.2 - offset))

/-- 64-bit differences wrap. -/
def sub64 (a b : Nat) : Nat := (a + 2 ^ 64 - b) % 2 ^ 64

def bytes (w : WrittenRanges) : Nat :=
  w.ranges.foldl (fun result range => (result + sub64 range.2 range.1) % 2 ^ 64) w.prefixEnd

/-! ## What is represented -/

/-- The bytes the ranges stand for. -/
def covers (w : WrittenRanges) : Set Nat := Set.Ico 0 w.prefixEnd ∪ covered w.ranges

/-- Sorted, disjoint and not touching, strictly beyond the front, and within 64 bits. -/
structure WellFormed (w : WrittenRanges) : Prop where
  spaced : Spaced w.ranges
  beyond : ∀ range ∈ w.ranges, w.prefixEnd < range.1
  prefix_fits : w.prefixEnd < 2 ^ 64
  ranges_fit : ∀ range ∈ w.ranges, range.2 < 2 ^ 64

theorem empty_wellFormed : empty.WellFormed where
  spaced := Spaced.nil
  beyond := by simp [empty]
  prefix_fits := by simp [empty]
  ranges_fit := by simp [empty]

@[simp] theorem covers_empty : empty.covers = ∅ := by simp [covers, empty]

theorem growPrefix_eq (stop : Nat) (l : List (Nat × Nat)) :
    growPrefix stop l = ((mergeInto 0 stop l).1.2, (mergeInto 0 stop l).2) := by
  induction l generalizing stop with
  | nil => rfl
  | cons last rest ih =>
    by_cases hmeet : last.1 ≤ stop
    · rw [growPrefix, if_pos hmeet, mergeInto_cons_pos rest hmeet, ih, Nat.zero_min]
    · rw [growPrefix, if_neg hmeet, mergeInto_cons_neg rest hmeet]

/-- What starts within the front makes the front longer. -/
theorem Ico_union_prefix {begin stop front : Nat} (h : begin ≤ front) :
    Set.Ico 0 (max front stop) = Set.Ico 0 front ∪ Set.Ico begin stop := by
  ext x
  simp only [Set.mem_Ico, Set.mem_union]
  omega

theorem add_prefix {w : WrittenRanges} {begin stop : Nat} (h : w.WellFormed) (hlt : begin < stop)
    (hfits : stop < 2 ^ 64) (hfront : begin ≤ w.prefixEnd) :
    (w.add begin stop).WellFormed ∧
      (w.add begin stop).covers = w.covers ∪ Set.Ico begin stop := by
  have hadd : w.add begin stop =
      ⟨(mergeInto 0 (max w.prefixEnd stop) w.ranges).2,
        (mergeInto 0 (max w.prefixEnd stop) w.ranges).1.2⟩ := by
    rw [add, if_neg (by omega), if_pos hfront, growPrefix_eq]
  have hpos : 0 < max w.prefixEnd stop := by omega
  obtain ⟨hspaced, hcov⟩ := mergeInto_spec hpos h.spaced fun r _ => Nat.zero_le r.2
  have hzero : (mergeInto 0 (max w.prefixEnd stop) w.ranges).1.1 = 0 :=
    mergeInto_begin fun r _ => Nat.zero_le r.1
  obtain ⟨_, hbeyond, hrest⟩ := spaced_cons.1 hspaced
  rw [hadd]
  refine ⟨⟨hrest, hbeyond, ?_, fun r hr => h.ranges_fit r (mergeInto_subset hr)⟩, ?_⟩
  · exact mergeInto_stop_lt (max_lt h.prefix_fits hfits) h.ranges_fit
  · rw [covered_cons, hzero] at hcov
    rw [covers, hcov, Ico_union_prefix hfront, covers, Set.union_right_comm]

theorem add_behind {w : WrittenRanges} {begin stop : Nat} (h : w.WellFormed) (hlt : begin < stop)
    (hfits : stop < 2 ^ 64) (hfront : w.prefixEnd < begin) :
    (w.add begin stop).WellFormed ∧
      (w.add begin stop).covers = w.covers ∪ Set.Ico begin stop := by
  obtain ⟨front, hfr⟩ : ∃ l, l = w.ranges.takeWhile fun range => range.2 < begin := ⟨_, rfl⟩
  obtain ⟨first, hfi⟩ : ∃ l, l = w.ranges.dropWhile fun range => range.2 < begin := ⟨_, rfl⟩
  have hsplit : w.ranges = front ++ first := by
    rw [hfr, hfi, List.takeWhile_append_dropWhile]
  have hadd : w.add begin stop =
      ⟨front ++ (mergeInto begin stop first).1 :: (mergeInto begin stop first).2,
        w.prefixEnd⟩ := by
    rw [add, if_neg (by omega), if_neg (by omega), hfr, hfi]
  have hends : ∀ r ∈ front, r.2 < begin := by
    intro r hr
    rw [hfr] at hr
    simpa using List.mem_takeWhile_imp hr
  have hfrom : ∀ r ∈ first, begin ≤ r.2 := by
    intro r hr
    rw [hfi] at hr
    exact h.spaced.le_of_dropWhile hr
  obtain ⟨hspaced, hbeyond, hpfits, hrfit⟩ := h
  rw [hsplit] at hspaced hbeyond hrfit
  obtain ⟨hsfront, hsfirst, hcross⟩ := spaced_append.1 hspaced
  obtain ⟨hmerged, hcov⟩ := mergeInto_spec hlt hsfirst hfrom
  have hstart : ∀ a < begin, (∀ r ∈ first, a < r.1) → a < (mergeInto begin stop first).1.1 :=
    fun a ha hall => le_mergeInto_begin ha hall
  rw [hadd]
  refine ⟨⟨spaced_append.2 ⟨hsfront, hmerged, fun r hr s hs => ?_⟩, fun r hr => ?_, hpfits,
    fun r hr => ?_⟩, ?_⟩
  · rcases List.mem_cons.1 hs with rfl | hs
    · exact hstart r.2 (hends r hr) (hcross r hr)
    · exact hcross r hr s (mergeInto_subset hs)
  · rcases List.mem_append.1 hr with hr | hr
    · exact hbeyond r (List.mem_append_left first hr)
    · rcases List.mem_cons.1 hr with rfl | hr
      · exact hstart w.prefixEnd hfront fun s hs => hbeyond s (List.mem_append_right front hs)
      · exact hbeyond r (List.mem_append_right front (mergeInto_subset hr))
  · rcases List.mem_append.1 hr with hr | hr
    · exact hrfit r (List.mem_append_left first hr)
    · rcases List.mem_cons.1 hr with rfl | hr
      · exact mergeInto_stop_lt hfits fun s hs => hrfit s (List.mem_append_right front hs)
      · exact hrfit r (List.mem_append_right front (mergeInto_subset hr))
  · show Set.Ico 0 w.prefixEnd ∪ covered _ = Set.Ico 0 w.prefixEnd ∪ covered w.ranges ∪ _
    rw [covered_append, hcov, hsplit, covered_append, Set.union_comm (Set.Ico begin stop),
      ← Set.union_assoc (covered front), Set.union_assoc (Set.Ico 0 w.prefixEnd)]

/-- Adding an interval keeps the ranges in form and adds its bytes. -/
theorem add_spec {w : WrittenRanges} (h : w.WellFormed) (a : Interval) :
    (w.add a.begin a.stop).WellFormed ∧
      (w.add a.begin a.stop).covers = w.covers ∪ Set.Ico a.begin a.stop := by
  rcases Nat.eq_or_lt_of_le a.ordered with heq | hlt
  · rw [add, if_pos heq, heq, Set.Ico_self, Set.union_empty]
    exact ⟨h, rfl⟩
  · rcases Nat.lt_or_ge w.prefixEnd a.begin with hfront | hfront
    · exact add_behind h hlt a.fits hfront
    · exact add_prefix h hlt a.fits hfront

/-! ## Bytes -/

theorem sub64_eq {a b : Nat} (h : b ≤ a) (ha : a < 2 ^ 64) : sub64 a b = a - b := by
  rw [sub64]
  omega

/-- The lengths of well formed ranges, with what stands in front of them, fit. -/
theorem totalLength_le {l : List (Nat × Nat)} {front : Nat} (h : Spaced l)
    (hbeyond : ∀ r ∈ l, front < r.1) (hfit : ∀ r ∈ l, r.2 < 2 ^ 64) (hfront : front < 2 ^ 64) :
    front + totalLength l < 2 ^ 64 := by
  induction l generalizing front with
  | nil => simpa [totalLength] using hfront
  | cons r l ih =>
    obtain ⟨hr, hl, hspaced⟩ := spaced_cons.1 h
    have hle : r.2 + totalLength l < 2 ^ 64 :=
      ih hspaced hl (fun s hs => hfit s (List.mem_cons_of_mem r hs)) (hfit r List.mem_cons_self)
    have hlt := hbeyond r List.mem_cons_self
    rw [totalLength, List.map_cons, List.sum_cons, ← totalLength]
    omega

theorem foldl_bytes {l : List (Nat × Nat)} {start : Nat} (h : Spaced l)
    (hfit : ∀ r ∈ l, r.2 < 2 ^ 64) (hsum : start + totalLength l < 2 ^ 64) :
    l.foldl (fun result range => (result + sub64 range.2 range.1) % 2 ^ 64) start =
      start + totalLength l := by
  induction l generalizing start with
  | nil => rfl
  | cons r l ih =>
    obtain ⟨hr, _, hspaced⟩ := spaced_cons.1 h
    rw [totalLength, List.map_cons, List.sum_cons, ← totalLength] at hsum ⊢
    rw [List.foldl_cons, sub64_eq hr.le (hfit r List.mem_cons_self), Nat.mod_eq_of_lt (by omega),
      ih hspaced (fun s hs => hfit s (List.mem_cons_of_mem r hs)) (by omega), Nat.add_assoc]

theorem bytes_eq_ncard {w : WrittenRanges} (h : w.WellFormed) : w.bytes = w.covers.ncard := by
  obtain ⟨hlength, hfin⟩ := totalLength_eq_ncard h.spaced
  have hdisjoint : Disjoint (Set.Ico 0 w.prefixEnd) (covered w.ranges) := by
    rw [Set.disjoint_left]
    rintro x hx ⟨r, hr, hrx⟩
    exact absurd (lt_trans hx.2 (h.beyond r hr)) (not_lt.2 hrx.1)
  have hsum := totalLength_le h.spaced h.beyond h.ranges_fit h.prefix_fits
  rw [bytes, foldl_bytes h.spaced h.ranges_fit hsum, covers,
    Set.ncard_union_eq hdisjoint (Set.finite_Ico 0 w.prefixEnd) hfin, ← hlength,
    ← Finset.coe_Ico, Set.ncard_coe_finset, Nat.card_Ico, Nat.sub_zero]

/-! ## Runs -/

theorem next_pos (w : WrittenRanges) (offset : Nat) {size : Nat} (hsize : 0 < size) :
    0 < (w.next offset size).2 ∧ (w.next offset size).2 ≤ size := by
  rw [next]
  split_ifs with hfront
  · exact ⟨lt_min hsize (by omega), min_le_left _ _⟩
  · cases hfind : w.ranges.find? fun range => offset < range.2 with
    | none => exact ⟨hsize, le_rfl⟩
    | some it =>
      have hit : offset < it.2 := by simpa using List.find?_some hfind
      show 0 < (if offset < it.1 then _ else _ : Bool × Nat).2 ∧
        (if offset < it.1 then _ else _ : Bool × Nat).2 ≤ size
      split_ifs with hhole
      · exact ⟨lt_min hsize (by omega), min_le_left _ _⟩
      · exact ⟨lt_min hsize (by omega), min_le_left _ _⟩

/-- A run is covered or a hole throughout. -/
theorem next_uniform {w : WrittenRanges} (h : w.WellFormed) {offset size x : Nat}
    (hoffset : offset ≤ x) (hx : x < offset + (w.next offset size).2) :
    (w.next offset size).1 = true ↔ x ∈ w.covers := by
  rw [covers, Set.mem_union, Set.mem_Ico]
  revert hx
  rw [next]
  split_ifs with hfront
  · intro hx
    have hlt : x < w.prefixEnd := by simp only at hx; omega
    exact ⟨fun _ => Or.inl ⟨Nat.zero_le x, hlt⟩, fun _ => rfl⟩
  · cases hfind : w.ranges.find? fun range => offset < range.2 with
    | none =>
      intro _
      have hnot := notMem_covered_of_find hfind hoffset
      constructor
      · intro hfalse
        exact absurd hfalse (by simp)
      · rintro (hlt | hcov)
        · omega
        · exact absurd hcov hnot
    | some it =>
      have hit : offset < it.2 := by simpa using List.find?_some hfind
      show x < offset + (if offset < it.1 then _ else _ : Bool × Nat).2 →
        ((if offset < it.1 then _ else _ : Bool × Nat).1 = true ↔ _)
      split_ifs with hhole
      · intro hx
        have hlt : x < it.1 := by simp only at hx; omega
        have hend : x < it.2 :=
          lt_trans hlt (h.spaced.nonempty it (List.mem_of_find?_eq_some hfind))
        rw [h.spaced.mem_covered_of_find hfind hoffset hend]
        simp only [false_iff]
        omega
      · intro hx
        have hend : x < it.2 := by simp only at hx; omega
        rw [h.spaced.mem_covered_of_find hfind hoffset hend]
        simp only [true_iff]
        omega

/-- Only the last run can reach the end of the numbers. -/
theorem next_lt {w : WrittenRanges} (h : w.WellFormed) {offset size : Nat}
    (hshort : (w.next offset size).2 < size) : offset + (w.next offset size).2 < 2 ^ 64 := by
  revert hshort
  have hprefix := h.prefix_fits
  rw [next]
  split_ifs with hfront
  · intro hshort
    simp only at hshort ⊢
    omega
  · cases hfind : w.ranges.find? fun range => offset < range.2 with
    | none => exact fun hshort => absurd hshort (lt_irrefl size)
    | some it =>
      have hit : offset < it.2 := by simpa using List.find?_some hfind
      have hmem := List.mem_of_find?_eq_some hfind
      have hends := h.ranges_fit it hmem
      have hne := h.spaced.nonempty it hmem
      show (if offset < it.1 then _ else _ : Bool × Nat).2 < size →
        offset + (if offset < it.1 then _ else _ : Bool × Nat).2 < 2 ^ 64
      split_ifs with hhole
      · intro hshort
        simp only at hshort ⊢
        omega
      · intro hshort
        simp only at hshort ⊢
        omega

/-! ## Sequences of additions -/

/-- The ranges after the intervals were added one after another. -/
def addAll (adds : List Interval) : WrittenRanges :=
  adds.foldl (fun w a => w.add a.begin a.stop) empty

theorem foldl_add {w : WrittenRanges} (h : w.WellFormed) (adds : List Interval) :
    (adds.foldl (fun w a => w.add a.begin a.stop) w).WellFormed ∧
      ∀ x, x ∈ (adds.foldl (fun w a => w.add a.begin a.stop) w).covers ↔
        x ∈ w.covers ∨ ∃ a ∈ adds, a.begin ≤ x ∧ x < a.stop := by
  induction adds generalizing w with
  | nil => exact ⟨h, fun x => by simp⟩
  | cons a adds ih =>
    obtain ⟨hadd, hcov⟩ := add_spec h a
    obtain ⟨hform, hall⟩ := ih hadd
    refine ⟨hform, fun x => (hall x).trans ?_⟩
    rw [hcov, Set.mem_union, Set.mem_Ico, List.exists_mem_cons_iff, or_assoc]

/-- Whether some added interval holds the offset. -/
def added (adds : List Interval) (x : Nat) : Bool :=
  adds.any fun a => a.begin ≤ x && x < a.stop

theorem addAll_wellFormed (adds : List Interval) : (addAll adds).WellFormed :=
  (foldl_add empty_wellFormed adds).1

theorem added_iff (adds : List Interval) (x : Nat) :
    added adds x = true ↔ x ∈ (addAll adds).covers := by
  rw [addAll, (foldl_add empty_wellFormed adds).2 x, covers_empty, added, List.any_eq_true]
  simp

theorem addAll_bytes (adds : List Interval) :
    (addAll adds).bytes = {x | added adds x = true}.ncard := by
  rw [bytes_eq_ncard (addAll_wellFormed adds)]
  congr 1
  ext x
  exact (added_iff adds x).symm

theorem addAll_next (adds : List Interval) {offset size x : Nat} (hoffset : offset ≤ x)
    (hx : x < offset + ((addAll adds).next offset size).2) :
    added adds x = ((addAll adds).next offset size).1 := by
  rw [Bool.eq_iff_iff, added_iff]
  exact (next_uniform (addAll_wellFormed adds) hoffset hx).symm

end WrittenRanges

end Sunpack.Replay
