import Sunpack.Journal.Runtime

/-!
# Covered records of one stream

What the counters of a stream say about its records: up to the durable frontier every record is
covered by a sync, and a record that is not covered yet is in a dirty segment. Every change that a
critical section makes to one stream keeps this.
-/

namespace Sunpack.Journal

/-- The segments agree on what flushing depends on. -/
structure SegmentState.SameData (a b : SegmentState) : Prop where
  file : b.file = a.file
  lastSeq : b.lastSeq = a.lastSeq
  writeEpoch : b.writeEpoch = a.writeEpoch
  flushedEpoch : b.flushedEpoch = a.flushedEpoch

theorem SegmentState.SameData.refl (a : SegmentState) : a.SameData a := ⟨rfl, rfl, rfl, rfl⟩

theorem SegmentState.SameData.trans {a b c : SegmentState} (h : a.SameData b) (h' : b.SameData c) :
    a.SameData c :=
  ⟨h'.file.trans h.file, h'.lastSeq.trans h.lastSeq, h'.writeEpoch.trans h.writeEpoch,
    h'.flushedEpoch.trans h.flushedEpoch⟩

theorem SegmentState.SameData.clean {a b : SegmentState} (h : a.SameData b) :
    StreamState.clean b = StreamState.clean a := by
  rw [StreamState.clean, StreamState.clean, h.writeEpoch, h.flushedEpoch]

namespace StreamState

/-! ## Quiet changes -/

/-- A change that writes nothing and syncs nothing: only clean segments may go away. -/
structure Quiet (st st' : StreamState) : Prop where
  retired : st'.retired = st.retired
  written : st'.writtenSeq = st.writtenSeq
  count : st'.writeCount = st.writeCount
  kept : ∀ start segment, st.segments.lookup start = some segment → clean segment = true ∨
    ∃ segment', st'.segments.lookup start = some segment' ∧ segment.SameData segment'
  old : ∀ start segment', st'.segments.lookup start = some segment' →
    ∃ segment, st.segments.lookup start = some segment ∧ segment.SameData segment'

/-- A change that leaves the segments alone. -/
theorem Quiet.of_segments {st st' : StreamState} (hretired : st'.retired = st.retired)
    (hwritten : st'.writtenSeq = st.writtenSeq) (hcount : st'.writeCount = st.writeCount)
    (hsegments : st'.segments = st.segments) : Quiet st st' where
  retired := hretired
  written := hwritten
  count := hcount
  kept _ segment h := .inr ⟨segment, hsegments ▸ h, .refl segment⟩
  old _ segment h := ⟨segment, hsegments ▸ h, .refl segment⟩

theorem Quiet.trans {a b c : StreamState} (h : Quiet a b) (h' : Quiet b c) : Quiet a c where
  retired := h'.retired.trans h.retired
  written := h'.written.trans h.written
  count := h'.count.trans h.count
  kept start segment hs := by
    rcases h.kept start segment hs with hclean | ⟨segment', hs', hsame⟩
    · exact .inl hclean
    rcases h'.kept start segment' hs' with hclean | ⟨segment'', hs'', hsame'⟩
    · exact .inl (hsame.clean ▸ hclean)
    · exact .inr ⟨segment'', hs'', hsame.trans hsame'⟩
  old start segment'' hs'' := by
    obtain ⟨segment', hs', hsame'⟩ := h'.old start segment'' hs''
    obtain ⟨segment, hs, hsame⟩ := h.old start segment' hs'
    exact ⟨segment, hs, hsame.trans hsame'⟩

theorem Quiet.refl (st : StreamState) : Quiet st st := .of_segments rfl rfl rfl rfl

theorem Quiet.request (st : StreamState) (target : Nat) : Quiet st (st.request target) :=
  .of_segments rfl rfl rfl rfl

/-- Closing a clean segment. -/
theorem Quiet.closeSegment {st : StreamState} {start : Nat} (boundary : Nat)
    (h : ∀ segment, st.segments.lookup start = some segment → clean segment = true) :
    Quiet st (st.closeSegment start boundary) where
  retired := rfl
  written := rfl
  count := rfl
  kept start' segment hs := by
    by_cases hstart : start' = start
    · exact .inl (h segment (hstart ▸ hs))
    · exact .inr ⟨segment, (AList.lookup_erase_ne hstart).trans hs, .refl segment⟩
  old start' segment hs := by
    by_cases hstart : start' = start
    · subst hstart
      rw [StreamState.closeSegment, AList.lookup_erase] at hs
      exact absurd hs (by simp)
    · exact ⟨segment, (AList.lookup_erase_ne hstart).symm.trans hs, .refl segment⟩

/-- Replacing a segment by one with the same data. -/
theorem Quiet.insert {st : StreamState} {start : Nat} {segment segment' : SegmentState}
    (h : st.segments.lookup start = some segment) (hsame : segment.SameData segment') :
    Quiet st { st with segments := st.segments.insert start segment' } where
  retired := rfl
  written := rfl
  count := rfl
  kept start' other hs := by
    by_cases hstart : start' = start
    · subst hstart
      obtain rfl : segment = other := Option.some.inj (h.symm.trans hs)
      exact .inr ⟨segment', AList.lookup_insert _, hsame⟩
    · exact .inr ⟨other, (AList.lookup_insert_ne hstart).trans hs, .refl other⟩
  old start' other hs := by
    by_cases hstart : start' = start
    · subst hstart
      obtain rfl : segment' = other := Option.some.inj ((AList.lookup_insert _).symm.trans hs)
      exact ⟨segment, h, hsame⟩
    · exact ⟨other, (AList.lookup_insert_ne hstart).symm.trans hs, .refl other⟩

/-- Noting where a segment ends. -/
theorem Quiet.sealAt {st : StreamState} {start : Nat} {segment : SegmentState}
    (h : st.segments.lookup start = some segment) (boundary : Nat) : Quiet st { st with
      segments := st.segments.insert start { segment with sealedEnd := some boundary } } :=
  .insert h ⟨rfl, rfl, rfl, rfl⟩

/-- `close_ready_segments` closes clean segments within the durable frontier. -/
theorem closeReadySegments_quiet (st : StreamState) (h : st.sealedSeq ≤ st.durableSeq) :
    Quiet st st.closeReadySegments ∧ st.closeReadySegments.durableSeq = st.durableSeq ∧
      st.closeReadySegments.sealedSeq ≤ st.durableSeq := by
  have hfold (ready : List (Nat × Nat)) (hready : ∀ closing ∈ ready, closing.2 ≤ st.durableSeq ∧
      ∀ segment, st.segments.lookup closing.1 = some segment → clean segment = true)
      (cur : StreamState) (hquiet : Quiet st cur) (hdurable : cur.durableSeq = st.durableSeq)
      (hsealed : cur.sealedSeq ≤ st.durableSeq) :
      let last := ready.foldl (fun stream closing => stream.closeSegment closing.1 closing.2) cur
      Quiet st last ∧ last.durableSeq = st.durableSeq ∧ last.sealedSeq ≤ st.durableSeq := by
    induction ready generalizing cur with
    | nil => exact ⟨hquiet, hdurable, hsealed⟩
    | cons closing ready ih =>
      obtain ⟨hboundary, hclean⟩ := hready closing List.mem_cons_self
      refine ih (fun c hc => hready c (List.mem_cons_of_mem _ hc)) _ ?_ hdurable
        (Nat.max_le.2 ⟨hsealed, hboundary⟩)
      refine hquiet.trans (Quiet.closeSegment _ fun segment hs => ?_)
      obtain ⟨segment', hs', hsame⟩ := hquiet.old _ segment hs
      exact hsame.clean ▸ hclean segment' hs'
  refine hfold _ (fun closing hclosing => ?_) st (.refl st) rfl h
  obtain ⟨entry, hentry, heq⟩ := List.mem_filterMap.1 hclosing
  rw [Option.bind_eq_some_iff] at heq
  obtain ⟨boundary, _, heq⟩ := heq
  split_ifs at heq with hready
  obtain rfl := Option.some.inj heq
  rw [Bool.and_eq_true, decide_eq_true_eq] at hready
  refine ⟨hready.1, fun segment hs => ?_⟩
  have hlookup : st.segments.lookup entry.1 = some entry.2 := AList.mem_lookup_iff.2 hentry
  obtain rfl : segment = entry.2 := Option.some.inj (hs.symm.trans hlookup)
  exact hready.2

/-! ## Sound streams -/

/-- The counters of a stream are right about its records. -/
structure Sound (h : History) (st : StreamState) : Prop where
  durable_le : st.durableSeq ≤ st.writtenSeq
  sealed_le : st.sealedSeq ≤ st.durableSeq
  unwritten : st.writeCount = 0 → ∀ w ∈ h.writes, w.retired ≠ st.retired
  seq_le : ∀ w ∈ h.writes, w.retired = st.retired → w.seq ≤ st.writtenSeq
  /-- No record is missing between two written ones. -/
  dense : ∀ w ∈ h.writes, w.retired = st.retired → ∀ n, w.seq ≤ n → n ≤ st.writtenSeq →
    ∃ x ∈ h.writes, x.retired = st.retired ∧ x.seq = n
  covered : ∀ w ∈ h.writes, w.retired = st.retired → w.seq ≤ st.durableSeq → h.Covered w
  dirty : ∀ w ∈ h.writes, w.retired = st.retired → h.Covered w ∨
    ∃ segment, st.segments.lookup w.start = some segment ∧ segment.file = w.file ∧
      segment.flushedEpoch < w.epoch ∧ w.epoch ≤ segment.writeEpoch
  flushed_le : ∀ start segment, st.segments.lookup start = some segment →
    segment.flushedEpoch ≤ segment.writeEpoch
  lastSeq : ∀ start segment, st.segments.lookup start = some segment → clean segment = false →
    segment.lastSeq ≠ 0 ∧ segment.lastSeq ≤ st.writtenSeq

variable {h : History} {st st' : StreamState}

theorem clean_eq_false {segment : SegmentState} :
    clean segment = false ↔ segment.flushedEpoch < segment.writeEpoch := by
  rw [clean, decide_eq_false_iff_not, Nat.not_le]

theorem Sound.quiet (hs : Sound h st) (hq : Quiet st st') (hdurable : st'.durableSeq = st.durableSeq)
    (hsealed : st'.sealedSeq ≤ st'.durableSeq) : Sound h st' where
  durable_le := by rw [hdurable, hq.written]; exact hs.durable_le
  sealed_le := hsealed
  unwritten hcount := by rw [hq.retired]; exact hs.unwritten (hq.count ▸ hcount)
  seq_le := by rw [hq.retired, hq.written]; exact hs.seq_le
  dense := by rw [hq.retired, hq.written]; exact hs.dense
  covered := by rw [hq.retired, hdurable]; exact hs.covered
  dirty w hw hret := by
    rcases hs.dirty w hw (hret.trans hq.retired) with hcov | ⟨segment, hlookup, hfile, hlt, hle⟩
    · exact .inl hcov
    rcases hq.kept _ segment hlookup with hclean | ⟨segment', hlookup', hsame⟩
    · rw [clean, decide_eq_true_eq] at hclean
      omega
    · refine .inr ⟨segment', hlookup', hsame.file.trans hfile, ?_, ?_⟩
      · rw [hsame.flushedEpoch]; exact hlt
      · rw [hsame.writeEpoch]; exact hle
  flushed_le start segment' hlookup' := by
    obtain ⟨segment, hlookup, hsame⟩ := hq.old start segment' hlookup'
    rw [hsame.flushedEpoch, hsame.writeEpoch]
    exact hs.flushed_le start segment hlookup
  lastSeq start segment' hlookup' hclean := by
    obtain ⟨segment, hlookup, hsame⟩ := hq.old start segment' hlookup'
    rw [hsame.lastSeq, hq.written]
    exact hs.lastSeq start segment hlookup (hsame.clean ▸ hclean)

/-- A new stream, before anything is written to it. -/
theorem Sound.fresh {retired : Nat} (hwrites : ∀ w ∈ h.writes, w.retired ≠ retired) :
    Sound h { retired := retired } where
  durable_le := Nat.le_refl _
  sealed_le := Nat.le_refl _
  unwritten _ := hwrites
  seq_le w hw hret := absurd hret (hwrites w hw)
  dense w hw hret := absurd hret (hwrites w hw)
  covered w hw hret := absurd hret (hwrites w hw)
  dirty w hw hret := absurd hret (hwrites w hw)
  flushed_le start segment hs := by simp at hs
  lastSeq start segment hs := by simp at hs

/-- With no dirty segment, everything written is covered. -/
theorem Sound.of_not_dirty (hs : Sound h st) (hdirty : st.dirtySegments = []) :
    Sound h { st with durableSeq := max st.durableSeq st.writtenSeq } := by
  have hall : ∀ w ∈ h.writes, w.retired = st.retired → h.Covered w := by
    intro w hw hret
    rcases hs.dirty w hw hret with hcov | ⟨segment, hlookup, _, hlt, hle⟩
    · exact hcov
    have hclean : clean segment = false := clean_eq_false.2 (by omega)
    obtain ⟨hne, hlast⟩ := hs.lastSeq _ segment hlookup hclean
    rw [dirtySegments, List.map_eq_nil_iff, List.filter_eq_nil_iff] at hdirty
    have hentry := AList.mem_lookup_iff.1 hlookup
    exact absurd (hdirty _ hentry) (by simp [hne, hlast, hclean])
  exact { hs with
    durable_le := Nat.max_le.2 ⟨hs.durable_le, Nat.le_refl _⟩
    sealed_le := hs.sealed_le.trans (Nat.le_max_left _ _)
    covered := fun w hw hret _ => hall w hw hret }

/-- Closing what is ready. -/
theorem Sound.closeReady (hs : Sound h st) : Sound h st.closeReadySegments := by
  obtain ⟨hquiet, hdurable, hsealed⟩ := closeReadySegments_quiet st hs.sealed_le
  exact hs.quiet hquiet hdurable (hdurable ▸ hsealed)

/-- Seeding a stream to which nothing was appended. -/
theorem Sound.seeded (hs : Sound h st) (hcount : st.writeCount = 0) (seq requested : Nat) :
    Sound h { st with
      writtenSeq := max st.writtenSeq seq
      durableSeq := max st.durableSeq seq
      requestedSeq := requested } where
  durable_le := by
    have hle := hs.durable_le
    simp only
    omega
  sealed_le := hs.sealed_le.trans (Nat.le_max_left _ _)
  unwritten := hs.unwritten
  seq_le w hw hret := absurd hret (hs.unwritten hcount w hw)
  dense w hw hret := absurd hret (hs.unwritten hcount w hw)
  covered w hw hret := absurd hret (hs.unwritten hcount w hw)
  dirty := hs.dirty
  flushed_le := hs.flushed_le
  lastSeq start segment hlookup hclean := by
    obtain ⟨hne, hle⟩ := hs.lastSeq start segment hlookup hclean
    exact ⟨hne, hle.trans (Nat.le_max_left _ _)⟩

/-- Adding a segment with nothing in it. -/
theorem Sound.insertSegment (hs : Sound h st) {start : Nat} (hlookup : st.segments.lookup start = none)
    (path : Text) (file : Nat) : Sound h { st with
      segments := st.segments.insert start { path := path, file := file } } := by
  have hother {start' : Nat} {segment : SegmentState}
      (hs' : st.segments.lookup start' = some segment) : start' ≠ start := by
    rintro rfl
    rw [hlookup] at hs'
    exact absurd hs' (by simp)
  have hnew {start' : Nat} {segment : SegmentState} (hs' : (st.segments.insert start
      { path := path, file := file }).lookup start' = some segment) :
      segment = { path := path, file := file } ∨ st.segments.lookup start' = some segment := by
    by_cases hstart : start' = start
    · subst hstart
      rw [AList.lookup_insert] at hs'
      exact .inl (Option.some.inj hs').symm
    · exact .inr ((AList.lookup_insert_ne hstart).symm.trans hs')
  exact { hs with
    dirty := fun w hw hret => (hs.dirty w hw hret).imp id fun ⟨segment, hs', hrest⟩ =>
      ⟨segment, (AList.lookup_insert_ne (hother hs')).trans hs', hrest⟩
    flushed_le := fun start' segment hs' => by
      rcases hnew hs' with rfl | hold
      · exact Nat.le_refl _
      · exact hs.flushed_le start' segment hold
    lastSeq := fun start' segment hs' hclean => by
      rcases hnew hs' with rfl | hold
      · exact absurd hclean (by simp [clean])
      · exact hs.lastSeq start' segment hold hclean }

/-! ## Publishing an append -/

/-- A validated batch continues the written sequence. -/
theorem seqs_of_monotonic {written : Nat} {items : List AppendItem}
    (h : RuntimeState.monotonicError written items = none) :
    items.map (·.seq) = List.range' (written + 1) items.length := by
  induction items generalizing written with
  | nil => rfl
  | cons item items ih =>
    rw [RuntimeState.monotonicError] at h
    split_ifs at h with hseq
    rw [List.map_cons, ih h, List.length_cons, List.range'_succ, hseq]

theorem lastSeq_of_monotonic {written : Nat} {items : List AppendItem}
    (h : RuntimeState.monotonicError written items = none) (hne : items ≠ []) :
    (items.getLast?.map (·.seq)).getD 0 = written + items.length := by
  have hlen := List.length_pos_iff.2 hne
  rw [← List.getLast?_map, seqs_of_monotonic h, List.getLast?_range', if_neg (by omega)]
  simp only [Option.getD_some]
  omega

theorem mem_writesOf {retired file epoch time written : Nat} {batch : AppendBatch}
    (h : RuntimeState.monotonicError written batch.items = none) {w : Write}
    (hw : w ∈ writesOf retired batch file epoch time) :
    w.retired = retired ∧ w.start = batch.segmentStart ∧ w.file = file ∧ w.epoch = epoch ∧
      w.time = time ∧ written < w.seq ∧ w.seq ≤ written + batch.items.length := by
  obtain ⟨item, hitem, rfl⟩ := List.mem_map.1 hw
  have hseq : item.seq ∈ List.range' (written + 1) batch.items.length :=
    seqs_of_monotonic h ▸ List.mem_map_of_mem hitem
  rw [List.mem_range'_1] at hseq
  exact ⟨rfl, rfl, rfl, rfl, rfl, by simp only; omega, by simp only; omega⟩

theorem exists_writesOf {written n : Nat} {batch : AppendBatch}
    (h : RuntimeState.monotonicError written batch.items = none) (hlt : written < n)
    (hle : n ≤ written + batch.items.length) (retired file epoch time : Nat) :
    ∃ w ∈ writesOf retired batch file epoch time, w.retired = retired ∧ w.seq = n := by
  have hseq : n ∈ batch.items.map (·.seq) := by
    rw [seqs_of_monotonic h, List.mem_range'_1]
    omega
  obtain ⟨item, hitem, rfl⟩ := List.mem_map.1 hseq
  exact ⟨_, List.mem_map_of_mem hitem, rfl, rfl⟩

/-- The stream of a validated batch is where it was validated, or it was retired meanwhile and the
new one under its key has no records. -/
def Continues (h : History) (st : StreamState) (written : Nat) : Prop :=
  st.writtenSeq = written ∨ (st.writtenSeq = 0 ∧ ∀ w ∈ h.writes, w.retired ≠ st.retired)

theorem Continues.written_le {written : Nat} (hc : Continues h st written) :
    st.writtenSeq ≤ written := by
  rcases hc with heq | ⟨heq, _⟩ <;> omega

/-- The segment after a batch has been published. -/
def appended (segment : SegmentState) (batch : AppendBatch) (written : Nat) : SegmentState :=
  { segment with
    lastSeq := written + batch.items.length
    writeEpoch := segment.writeEpoch + batch.items.length }

/-- The stream after a batch has been published. -/
def published (st : StreamState) (batch : AppendBatch) (segment : SegmentState) (written : Nat) :
    StreamState :=
  { st with
    segments := st.segments.insert batch.segmentStart (appended segment batch written)
    writtenSeq := written + batch.items.length
    writeCount := st.writeCount + batch.items.length }

theorem Sound.publish (hs : Sound h st) {batch : AppendBatch} {segment : SegmentState}
    {written file : Nat} (hlookup : st.segments.lookup batch.segmentStart = some segment)
    (hfile : segment.file = file)
    (hitems : RuntimeState.monotonicError written batch.items = none) (hne : batch.items ≠ [])
    (hwritten : Continues h st written) (time : Nat) :
    Sound (h.record (writesOf st.retired batch file (segment.writeEpoch + batch.items.length) time))
      (st.published batch segment written) := by
  have hlen := List.length_pos_iff.2 hne
  have hbelow := hwritten.written_le
  have hold {start' : Nat} {other : SegmentState} (hother : (st.published batch segment
      written).segments.lookup start' = some other) : (start' = batch.segmentStart ∧
        other = appended segment batch written) ∨
      st.segments.lookup start' = some other := by
    by_cases hstart : start' = batch.segmentStart
    · subst hstart
      rw [published, AList.lookup_insert] at hother
      exact .inl ⟨rfl, (Option.some.inj hother).symm⟩
    · exact .inr ((AList.lookup_insert_ne hstart).symm.trans hother)
  have hflushed := hs.flushed_le _ segment hlookup
  have hnew : (st.published batch segment written).segments.lookup batch.segmentStart =
      some (appended segment batch written) := AList.lookup_insert _
  constructor
  · exact hs.durable_le.trans (hbelow.trans (Nat.le_add_right _ _))
  · exact hs.sealed_le
  · intro hcount
    simp only [published] at hcount
    omega
  · intro w hw hret
    rcases List.mem_append.1 hw with hw | hw
    · exact (mem_writesOf hitems hw).2.2.2.2.2.2
    · exact (hs.seq_le w hw hret).trans (hbelow.trans (Nat.le_add_right _ _))
  · intro w hw hret n hle hn
    have hinBatch (hlt : written < n) : ∃ x ∈ writesOf st.retired batch file
        (segment.writeEpoch + batch.items.length) time ++ h.writes,
          x.retired = st.retired ∧ x.seq = n := by
      obtain ⟨x, hx, hxret, hxseq⟩ := exists_writesOf hitems hlt hn st.retired file
        (segment.writeEpoch + batch.items.length) time
      exact ⟨x, List.mem_append_left _ hx, hxret, hxseq⟩
    rcases List.mem_append.1 hw with hw | hw
    · have hlt := (mem_writesOf hitems hw).2.2.2.2.2.1
      exact hinBatch (by omega)
    · rcases hwritten with heq | ⟨_, hnone⟩
      · rcases Nat.lt_or_ge written n with hlt | hge
        · exact hinBatch hlt
        · obtain ⟨x, hx, hxret, hxseq⟩ := hs.dense w hw hret n hle (by omega)
          exact ⟨x, List.mem_append_right _ hx, hxret, hxseq⟩
      · exact absurd hret (hnone w hw)
  · intro w hw hret hle
    rcases List.mem_append.1 hw with hw | hw
    · have hlt := (mem_writesOf hitems hw).2.2.2.2.2.1
      have hdurable : st.durableSeq ≤ st.writtenSeq := hs.durable_le
      have hle : w.seq ≤ st.durableSeq := hle
      omega
    · exact hs.covered w hw hret hle
  · intro w hw hret
    rcases List.mem_append.1 hw with hw | hw
    · obtain ⟨_, hstart, hwfile, hepoch, _⟩ := mem_writesOf hitems hw
      refine .inr ⟨appended segment batch written, hstart ▸ hnew, hfile.trans hwfile.symm, ?_, ?_⟩
      · simp only [hepoch, appended]
        omega
      · rw [hepoch, appended]
    · rcases hs.dirty w hw hret with hcov | ⟨other, hother, hwfile, hlt, hle⟩
      · exact .inl hcov
      by_cases hstart : w.start = batch.segmentStart
      · obtain rfl : segment = other :=
          Option.some.inj (hlookup.symm.trans (hstart ▸ hother))
        refine .inr ⟨appended segment batch written, hstart ▸ hnew, hwfile, hlt, ?_⟩
        exact hle.trans (Nat.le_add_right _ _)
      · exact .inr ⟨other, (AList.lookup_insert_ne hstart).trans hother, hwfile, hlt, hle⟩
  · intro start' other hother
    rcases hold hother with ⟨_, rfl⟩ | hother
    · exact hflushed.trans (Nat.le_add_right _ _)
    · exact hs.flushed_le start' other hother
  · intro start' other hother hclean
    rcases hold hother with ⟨_, rfl⟩ | hother
    · refine ⟨?_, Nat.le_refl _⟩
      simp only [appended]
      omega
    · obtain ⟨hne', hle⟩ := hs.lastSeq start' other hother hclean
      exact ⟨hne', hle.trans (hbelow.trans (Nat.le_add_right _ _))⟩

/-! ## Publishing a flush -/

theorem markFlushed_lookup {snapshot : FlushSnapshot} {start : Nat} {segment' : SegmentState}
    (hlookup : (st.markFlushed snapshot).segments.lookup start = some segment') :
    ∃ segment, st.segments.lookup start = some segment ∧ segment'.file = segment.file ∧
      segment'.lastSeq = segment.lastSeq ∧ segment'.writeEpoch = segment.writeEpoch ∧
      (segment'.flushedEpoch = segment.flushedEpoch ∨ (start = snapshot.start ∧
        segment'.flushedEpoch = max segment.flushedEpoch snapshot.epoch)) := by
  unfold markFlushed at hlookup
  split at hlookup
  · rename_i segment hsegment
    by_cases hstart : start = snapshot.start
    · subst hstart
      rw [AList.lookup_insert] at hlookup
      obtain rfl := Option.some.inj hlookup
      exact ⟨segment, hsegment, rfl, rfl, rfl, .inr ⟨rfl, rfl⟩⟩
    · rw [AList.lookup_insert_ne hstart] at hlookup
      exact ⟨segment', hlookup, rfl, rfl, rfl, .inl rfl⟩
  · exact ⟨segment', hlookup, rfl, rfl, rfl, .inl rfl⟩

theorem markFlushed_counters (st : StreamState) (snapshot : FlushSnapshot) :
    (st.markFlushed snapshot).retired = st.retired ∧
      (st.markFlushed snapshot).writtenSeq = st.writtenSeq ∧
      (st.markFlushed snapshot).durableSeq = st.durableSeq ∧
      (st.markFlushed snapshot).sealedSeq = st.sealedSeq ∧
      (st.markFlushed snapshot).writeCount = st.writeCount := by
  unfold markFlushed
  split <;> exact ⟨rfl, rfl, rfl, rfl, rfl⟩

/-- The records that a snapshot stands for are covered. -/
def SnapshotCovered (h : History) (retired : Nat) (snapshot : FlushSnapshot) : Prop :=
  ∀ w ∈ h.writes, w.retired = retired → w.start = snapshot.start → w.epoch ≤ snapshot.epoch →
    h.Covered w

theorem Sound.markFlushed (hs : Sound h st) {snapshot : FlushSnapshot}
    (hcovered : SnapshotCovered h st.retired snapshot)
    (hepoch : ∀ segment, st.segments.lookup snapshot.start = some segment →
      snapshot.epoch ≤ segment.writeEpoch) : Sound h (st.markFlushed snapshot) := by
  obtain ⟨hretired, hwritten, hdurable, hsealed, hcount⟩ := markFlushed_counters st snapshot
  constructor
  · rw [hdurable, hwritten]; exact hs.durable_le
  · rw [hsealed, hdurable]; exact hs.sealed_le
  · rw [hcount, hretired]; exact hs.unwritten
  · rw [hretired, hwritten]; exact hs.seq_le
  · rw [hretired, hwritten]; exact hs.dense
  · rw [hretired, hdurable]; exact hs.covered
  · intro w hw hret
    rw [hretired] at hret
    rcases hs.dirty w hw hret with hcov | ⟨segment, hlookup, hfile, hlt, hle⟩
    · exact .inl hcov
    by_cases hstart : w.start = snapshot.start
    · by_cases hold : w.epoch ≤ snapshot.epoch
      · exact .inl (hcovered w hw hret hstart hold)
      · refine .inr ⟨{ segment with flushedEpoch := max segment.flushedEpoch snapshot.epoch }, ?_,
          hfile, Nat.max_lt.2 ⟨hlt, by omega⟩, hle⟩
        rw [hstart] at hlookup ⊢
        simp only [StreamState.markFlushed, hlookup, AList.lookup_insert]
    · refine .inr ⟨segment, ?_, hfile, hlt, hle⟩
      unfold StreamState.markFlushed
      split
      · exact (AList.lookup_insert_ne hstart).trans hlookup
      · exact hlookup
  · intro start segment' hlookup'
    obtain ⟨segment, hlookup, _, _, hwrite, hflushed⟩ := markFlushed_lookup hlookup'
    have hle := hs.flushed_le start segment hlookup
    rcases hflushed with hflushed | ⟨rfl, hflushed⟩
    · omega
    · have := hepoch segment hlookup
      omega
  · intro start segment' hlookup' hclean
    obtain ⟨segment, hlookup, _, hlast, hwrite, hflushed⟩ := markFlushed_lookup hlookup'
    rw [clean_eq_false] at hclean
    rw [hlast, hwritten]
    refine hs.lastSeq start segment hlookup (clean_eq_false.2 ?_)
    rcases hflushed with hflushed | ⟨_, hflushed⟩ <;> omega

/-- The stream after a round of syncs. -/
def flushed (st : StreamState) (work : FlushWork) : StreamState :=
  let marked := work.segments.foldl StreamState.markFlushed st
  { marked with durableSeq := max marked.durableSeq work.target }

/-- Marking segments changes their flushed epochs only. -/
theorem markAll_lookup {snapshots : List FlushSnapshot} {start : Nat} {segment' : SegmentState}
    (hlookup : (snapshots.foldl StreamState.markFlushed st).segments.lookup start = some segment') :
    ∃ segment, st.segments.lookup start = some segment ∧ segment'.file = segment.file ∧
      segment'.writeEpoch = segment.writeEpoch := by
  induction snapshots generalizing st with
  | nil => exact ⟨segment', hlookup, rfl, rfl⟩
  | cons snapshot snapshots ih =>
    obtain ⟨middle, hmiddle, hfile, hwrite⟩ := ih hlookup
    obtain ⟨segment, hsegment, hfile', _, hwrite', _⟩ := markFlushed_lookup hmiddle
    exact ⟨segment, hsegment, hfile.trans hfile', hwrite.trans hwrite'⟩

theorem markAll_counters (st : StreamState) (snapshots : List FlushSnapshot) :
    (snapshots.foldl StreamState.markFlushed st).retired = st.retired ∧
      (snapshots.foldl StreamState.markFlushed st).writtenSeq = st.writtenSeq := by
  induction snapshots generalizing st with
  | nil => exact ⟨rfl, rfl⟩
  | cons snapshot snapshots ih =>
    obtain ⟨hretired, hwritten, _⟩ := markFlushed_counters st snapshot
    obtain ⟨hretired', hwritten'⟩ := ih (st.markFlushed snapshot)
    exact ⟨hretired'.trans hretired, hwritten'.trans hwritten⟩

theorem Sound.flush (hs : Sound h st) {work : FlushWork} (htarget : work.target ≤ st.writtenSeq)
    (hcovered : ∀ snapshot ∈ work.segments, SnapshotCovered h st.retired snapshot)
    (hepoch : ∀ snapshot ∈ work.segments, ∀ segment,
      st.segments.lookup snapshot.start = some segment → snapshot.epoch ≤ segment.writeEpoch)
    (hall : ∀ w ∈ h.writes, w.retired = st.retired → w.seq ≤ work.target → h.Covered w) :
    Sound h (st.flushed work) := by
  have hmark (snapshots : List FlushSnapshot) (cur : StreamState) (hcur : Sound h cur)
      (hcovered : ∀ snapshot ∈ snapshots, SnapshotCovered h cur.retired snapshot)
      (hepoch : ∀ snapshot ∈ snapshots, ∀ segment,
        cur.segments.lookup snapshot.start = some segment → snapshot.epoch ≤ segment.writeEpoch) :
      Sound h (snapshots.foldl StreamState.markFlushed cur) := by
    induction snapshots generalizing cur with
    | nil => exact hcur
    | cons snapshot snapshots ih =>
      have hretired := (markFlushed_counters cur snapshot).1
      refine ih _ (hcur.markFlushed (hcovered _ List.mem_cons_self)
        (hepoch _ List.mem_cons_self)) (fun s hs => ?_) fun s hs segment' hlookup' => ?_
      · rw [hretired]
        exact hcovered s (List.mem_cons_of_mem _ hs)
      · obtain ⟨segment, hlookup, _, _, hwrite, _⟩ := markFlushed_lookup hlookup'
        rw [hwrite]
        exact hepoch s (List.mem_cons_of_mem _ hs) segment hlookup
  have hmarked := hmark work.segments st hs hcovered hepoch
  obtain ⟨hretired, hwritten⟩ := markAll_counters st work.segments
  exact { hmarked with
    durable_le := Nat.max_le.2 ⟨hmarked.durable_le, hwritten.symm ▸ htarget⟩
    sealed_le := hmarked.sealed_le.trans (Nat.le_max_left _ _)
    covered := fun w hw hret hle => by
      rcases Nat.le_total w.seq (work.segments.foldl StreamState.markFlushed st).durableSeq with
        hd | hd
      · exact hmarked.covered w hw hret hd
      · have hle : w.seq ≤ max (work.segments.foldl StreamState.markFlushed st).durableSeq
          work.target := hle
        rcases le_max_iff.1 hle with hd' | ht
        · exact hmarked.covered w hw hret hd'
        · exact hall w hw (hret.trans hretired) ht }

end StreamState

end Sunpack.Journal
