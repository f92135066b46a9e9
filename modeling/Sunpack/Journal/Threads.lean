import Sunpack.Journal.Invariant

/-!
# What the threads know

Between two critical sections the writer holds a batch that continues its stream and the file of its
segment, and the flusher holds a round of syncs that will cover every record up to its target. Each
critical section keeps the state good, and keeps what the other thread knows.
-/

namespace Sunpack.Journal

variable {s : RuntimeState} {h : History}

/-! ## Quiet critical sections -/

/-- The state stays good, and the threads do not have to know. -/
def Good (s s' : RuntimeState) (h : History) : Prop := StateInv s' h ∧ Calm s s'

theorem Good.trans {s s' s'' : RuntimeState} (h₁ : Good s s' h) (h₂ : Good s' s'' h) :
    Good s s'' h :=
  ⟨h₂.1, h₁.2.trans h₂.2⟩

theorem Good.put (hs : StateInv s h) {key : Text} {st st' : StreamState}
    (hst : s.streams key = some st) (hquiet : st.Quiet st') (hsound : st'.Sound h) :
    Good s (s.put key st') h :=
  ⟨hs.put hst hquiet.retired hsound, .put hst hquiet⟩

theorem Good.retire {s' : RuntimeState} (hg : Good s s' h) (key : Text) :
    Good s (s'.retireClosedStream key) h :=
  hg.trans (hg.1.retireClosedStream key)

theorem Good.entry (hs : StateInv s h) (key : Text) : Good s (s.entry key).1 h :=
  ⟨(hs.entry key).1, (hs.entry key).2.1⟩

/-- A quiet change of a stream that is created if it does not exist. -/
theorem Good.modify (hs : StateInv s h) (key : Text) {f : StreamState → StreamState}
    (hf : ∀ st, st.Sound h → st.Quiet (f st) ∧ (f st).Sound h) : Good s (s.modify key f) h := by
  obtain ⟨hs', hcalm, hst⟩ := hs.entry key
  obtain ⟨hquiet, hsound⟩ := hf _ (hs'.sound key _ hst)
  exact Good.trans ⟨hs', hcalm⟩ (Good.put hs' hst hquiet hsound)

/-- A change that leaves the segments and the frontiers alone. -/
theorem StreamState.Sound.same {st st' : StreamState} (hs : st.Sound h)
    (hretired : st'.retired = st.retired) (hwritten : st'.writtenSeq = st.writtenSeq)
    (hcount : st'.writeCount = st.writeCount) (hsegments : st'.segments = st.segments)
    (hdurable : st'.durableSeq = st.durableSeq) (hsealed : st'.sealedSeq = st.sealedSeq) :
    st.Quiet st' ∧ st'.Sound h := by
  have hquiet := StreamState.Quiet.of_segments hretired hwritten hcount hsegments
  exact ⟨hquiet, hs.quiet hquiet hdurable (by rw [hsealed, hdurable]; exact hs.sealed_le)⟩

theorem requestFlush_good (hs : StateInv s h) (key : Text) (target : Nat) :
    Good s (s.requestFlush key target) h :=
  Good.modify hs key fun _ hst => hst.same rfl rfl rfl rfl rfl rfl

theorem openStream_good (hs : StateInv s h) (key : Text) : Good s (s.openStream key) h :=
  Good.modify hs key fun _ hst => hst.same rfl rfl rfl rfl rfl rfl

theorem failStream_good (hs : StateInv s h) (key : Text) (error : String) :
    Good s (s.failStream key error) h := by
  have hmodify : Good s
      (s.modify key fun stream => { stream with error := stream.error <|> some error }) h :=
    Good.modify hs key fun _ hst => hst.same rfl rfl rfl rfl rfl rfl
  exact hmodify.retire key

theorem releaseStream_good (hs : StateInv s h) (key : Text) : Good s (s.releaseStream key) h := by
  unfold RuntimeState.releaseStream
  split
  · rename_i st hst
    have hreleased (st' : StreamState) (hretired : st'.retired = st.retired)
        (hwritten : st'.writtenSeq = st.writtenSeq) (hcount : st'.writeCount = st.writeCount)
        (hsegments : st'.segments = st.segments) (hdurable : st'.durableSeq = st.durableSeq)
        (hsealed : st'.sealedSeq = st.sealedSeq) :
        Good s ((s.put key st').retireClosedStream key) h := by
      have hsame := (hs.sound key st hst).same hretired hwritten hcount hsegments hdurable hsealed
      exact (Good.put hs hst hsame.1 hsame.2).retire key
    exact hreleased _ rfl rfl rfl rfl rfl rfl
  · exact hs.retireClosedStream key

theorem flushAll_good (hs : StateInv s h) : Good s s.flushAll h := by
  have hold {key : Text} {st' : StreamState} (hst' : s.flushAll.streams key = some st') :
      ∃ st, s.streams key = some st ∧ st' = st.request st.writtenSeq := by
    obtain ⟨st, hst, heq⟩ := Option.map_eq_some_iff.1 hst'
    exact ⟨st, hst, heq.symm⟩
  refine ⟨⟨?_, hs.frontier_lt, hs.write_lt, ?_, ?_, ?_, hs.frontier⟩, ⟨Nat.le_refl _, ?_, ?_⟩⟩
  · intro key st' hst'
    obtain ⟨st, hst, rfl⟩ := hold hst'
    exact hs.retired_lt key st hst
  · intro key₁ key₂ st₁ st₂ h₁ h₂ heq
    obtain ⟨st₁, hst₁, rfl⟩ := hold h₁
    obtain ⟨st₂, hst₂, rfl⟩ := hold h₂
    exact hs.distinct key₁ key₂ st₁ st₂ hst₁ hst₂ heq
  · intro key st' hst'
    obtain ⟨st, hst, rfl⟩ := hold hst'
    exact hs.live key st hst
  · intro key st' hst'
    obtain ⟨st, hst, rfl⟩ := hold hst'
    have hsound := hs.sound key st hst
    exact hsound.quiet (StreamState.Quiet.request st _) rfl hsound.sealed_le
  · intro key st' hst'
    obtain ⟨st, hst, rfl⟩ := hold hst'
    exact .inl ⟨st, hst, (StreamState.Quiet.request st _).keepsFiles⟩
  · intro key st' hst'
    obtain ⟨st, hst, rfl⟩ := hold hst'
    exact .inl ⟨st, hst, (StreamState.Quiet.request st _).keepsDirty⟩

theorem sealSegment_good (hs : StateInv s h) (command : SealCommand) :
    Good s (s.sealSegment command).1 h := by
  obtain ⟨hs', hcalm, hst⟩ := hs.entry command.stream
  rw [RuntimeState.sealSegment]
  set s' := (s.entry command.stream).1
  set st := (s.entry command.stream).2
  have hgood : Good s s' h := ⟨hs', hcalm⟩
  have hsound := hs'.sound _ st hst
  simp only
  split
  · rename_i segment hlookup
    split_ifs with hpath hready
    · exact hgood
    · -- the segment is clean and within the durable frontier
      rw [Bool.and_eq_true, decide_eq_true_eq] at hready
      have hended := StreamState.Quiet.sealAt hlookup command.boundary
      have hclosed := hended.trans (StreamState.Quiet.closeSegment command.boundary fun other ho => by
        rw [AList.lookup_insert] at ho
        exact Option.some.inj ho ▸ hready.2)
      refine hgood.trans (Good.put hs' hst hclosed (hsound.quiet hclosed rfl ?_))
      exact Nat.max_le.2 ⟨hsound.sealed_le, hready.1⟩
    · have hended := (StreamState.Quiet.sealAt hlookup command.boundary).trans
        (StreamState.Quiet.request _ command.boundary)
      exact hgood.trans (Good.put hs' hst hended (hsound.quiet hended rfl hsound.sealed_le))
  · split_ifs with hboundary
    · have hquiet : st.Quiet { st with sealedSeq := max st.sealedSeq command.boundary } :=
        .of_segments rfl rfl rfl rfl
      refine hgood.trans (Good.put hs' hst hquiet (hsound.quiet hquiet rfl ?_))
      exact Nat.max_le.2 ⟨hsound.sealed_le, hboundary⟩
    · exact hgood

/-- With nothing to sync, taking work only moves the frontier over covered records. -/
theorem takeFlushWork_none {s' : RuntimeState} (hs : StateInv s h) {key : Text}
    (heq : s.takeFlushWork key = some (s', none)) : Good s s' h := by
  unfold RuntimeState.takeFlushWork at heq
  split at heq
  · exact absurd heq (by simp)
  rename_i st hst
  split_ifs at heq
  split at heq
  · rename_i hdirty
    obtain rfl := (Prod.mk.inj (Option.some.inj heq)).1
    have hsound := hs.sound key st hst
    have hdurable := hsound.of_not_dirty hdirty
    have hquiet := (StreamState.Quiet.of_segments rfl rfl rfl rfl : st.Quiet
      { st with durableSeq := max st.durableSeq st.writtenSeq }).trans
        (StreamState.closeReadySegments_quiet _ hdurable.sealed_le).1
    exact (Good.put hs hst hquiet hdurable.closeReady).retire key
  · exact absurd heq (by simp)

/-! ## The writer -/

/-- A batch that continues its stream. -/
def Validated (s : RuntimeState) (h : History) (batch : AppendBatch) : Prop :=
  batch.items ≠ [] ∧ ∃ written, RuntimeState.monotonicError written batch.items = none ∧
    ∀ st, s.streams batch.stream = some st → st.Continues h written

/-- The file that the writer holds is the one of the segment, if that is still there. -/
def HoldsFile (s : RuntimeState) (batch : AppendBatch) (file : Nat) : Prop :=
  ∀ st segment, s.streams batch.stream = some st →
    st.segments.lookup batch.segmentStart = some segment → segment.file = file

def AppendInv (s : RuntimeState) (h : History) (batch : AppendBatch) : AppendStage → Prop
  | .encode => True
  | .validate => batch.items ≠ []
  | .lookup => Validated s h batch
  | .openFile => Validated s h batch
  | .insert _ => Validated s h batch
  | .write file => Validated s h batch ∧ HoldsFile s batch file
  | .publish file time => Validated s h batch ∧ HoldsFile s batch file ∧ time < h.clock

def WriterInv (s : RuntimeState) (h : History) : Writer → Prop
  | .append batch stage => AppendInv s h batch stage
  | _ => True

theorem Validated.kept {s' : RuntimeState} {batch : AppendBatch} (hv : Validated s h batch)
    (hlt : ∀ w ∈ h.writes, w.retired < s.nextRetired) (hk : FilesKept s s' batch.stream) :
    Validated s' h batch := by
  obtain ⟨hne, written, hitems, hcontinues⟩ := hv
  refine ⟨hne, written, hitems, fun st' hst' => ?_⟩
  rcases hk st' hst' with ⟨st, hst, hkeeps⟩ | ⟨hfresh, hwritten, _⟩
  · rcases hcontinues st hst with heq | ⟨heq, hnone⟩
    · exact .inl (hkeeps.written.trans heq)
    · exact .inr ⟨hkeeps.written.trans heq, hkeeps.retired.symm ▸ hnone⟩
  · exact .inr ⟨hwritten, fun w hw => Nat.ne_of_lt (Nat.lt_of_lt_of_le (hlt w hw) hfresh)⟩

theorem HoldsFile.kept {s' : RuntimeState} {batch : AppendBatch} {file : Nat}
    (hf : HoldsFile s batch file) (hk : FilesKept s s' batch.stream) : HoldsFile s' batch file := by
  intro st' segment' hst' hlookup'
  rcases hk st' hst' with ⟨st, hst, hkeeps⟩ | ⟨_, _, hnone⟩
  · obtain ⟨segment, hlookup, hfile⟩ := hkeeps.file _ segment' hlookup'
    exact hfile.trans (hf st segment hst hlookup)
  · rw [hnone] at hlookup'
    exact absurd hlookup' (by simp)

theorem WriterInv.kept {s' : RuntimeState} {writer : Writer} (hw : WriterInv s h writer)
    (hlt : ∀ w ∈ h.writes, w.retired < s.nextRetired)
    (hk : ∀ batch stage, writer = .append batch stage → FilesKept s s' batch.stream) :
    WriterInv s' h writer := by
  cases writer with
  | append batch stage =>
    have hstream : FilesKept s s' batch.stream := hk batch stage rfl
    cases stage with
    | encode => exact hw
    | validate => exact hw
    | lookup => exact Validated.kept hw hlt hstream
    | openFile => exact Validated.kept hw hlt hstream
    | insert file => exact Validated.kept hw hlt hstream
    | write file => exact ⟨hw.1.kept hlt hstream, hw.2.kept hstream⟩
    | publish file time => exact ⟨hw.1.kept hlt hstream, hw.2.1.kept hstream, hw.2.2⟩
  | _ => trivial

theorem Validated.extend {h' : History} (he : h.Extends h') {batch : AppendBatch}
    (hv : Validated s h batch) : Validated s h' batch := by
  obtain ⟨hne, written, hitems, hcontinues⟩ := hv
  refine ⟨hne, written, hitems, fun st hst => ?_⟩
  have := hcontinues st hst
  rwa [StreamState.Continues, he.writes]

theorem WriterInv.extend {h' : History} (he : h.Extends h') {writer : Writer}
    (hw : WriterInv s h writer) : WriterInv s h' writer := by
  cases writer with
  | append batch stage =>
    cases stage with
    | encode => exact hw
    | validate => exact hw
    | lookup => exact Validated.extend he hw
    | openFile => exact Validated.extend he hw
    | insert file => exact Validated.extend he hw
    | write file => exact ⟨hw.1.extend he, hw.2⟩
    | publish file time => exact ⟨hw.1.extend he, hw.2.1, Nat.lt_of_lt_of_le hw.2.2 he.clock⟩
  | _ => trivial

/-! ## The flusher -/

/-- A round of syncs is about the stream that it was taken from, and its snapshots stand for every
record up to the target that is not covered yet. -/
structure WorkInv (s : RuntimeState) (h : History) (work : FlushWork) : Prop where
  retired_lt : work.retired < s.nextRetired
  key : ∀ key st, s.streams key = some st → st.retired = work.retired → key = work.stream
  target : ∀ st, s.streams work.stream = some st → st.retired = work.retired →
    work.target ≤ st.writtenSeq
  segments : ∀ st, s.streams work.stream = some st → st.retired = work.retired →
    ∀ snapshot ∈ work.segments, ∃ segment, st.segments.lookup snapshot.start = some segment ∧
      segment.file = snapshot.file ∧ segment.flushedEpoch < snapshot.epoch ∧
      snapshot.epoch ≤ segment.writeEpoch
  all : ∀ w ∈ h.writes, w.retired = work.retired → w.seq ≤ work.target → h.Covered w ∨
    ∃ snapshot ∈ work.segments, w.start = snapshot.start ∧ w.epoch ≤ snapshot.epoch
  file : ∀ w ∈ h.writes, w.retired = work.retired → ∀ snapshot ∈ work.segments,
    w.start = snapshot.start → w.epoch ≤ snapshot.epoch → h.Covered w ∨ w.file = snapshot.file

/-- The records of a snapshot are covered, or the running sync will cover them. -/
def RunningInv (h : History) (retired : Nat) (snapshot : FlushSnapshot) (started : Nat) : Prop :=
  ∀ w ∈ h.writes, w.retired = retired → w.start = snapshot.start → w.epoch ≤ snapshot.epoch →
    h.Covered w ∨ (w.file = snapshot.file ∧ w.time < started)

def FlusherInv (s : RuntimeState) (h : History) : Flusher → Prop
  | .idle => True
  | .sync work rest none => WorkInv s h work ∧ rest ⊆ work.segments ∧
      ∀ snapshot ∈ work.segments, snapshot ∉ rest →
        StreamState.SnapshotCovered h work.retired snapshot
  | .sync work rest (some (running, started)) => WorkInv s h work ∧ rest ⊆ work.segments ∧
      running ∈ work.segments ∧ RunningInv h work.retired running started ∧
      ∀ snapshot ∈ work.segments, snapshot ∉ rest → snapshot ≠ running →
        StreamState.SnapshotCovered h work.retired snapshot
  | .publish work none => WorkInv s h work ∧
      ∀ snapshot ∈ work.segments, StreamState.SnapshotCovered h work.retired snapshot
  | .publish _ (some _) => True

theorem WorkInv.kept {s' : RuntimeState} {work : FlushWork} (hw : WorkInv s h work)
    (hn : s.nextRetired ≤ s'.nextRetired) (hk : ∀ key, DirtyKept s s' key) : WorkInv s' h work where
  retired_lt := Nat.lt_of_lt_of_le hw.retired_lt hn
  key key st' hst' hret := by
    rcases hk key st' hst' with ⟨st, hst, hkeeps⟩ | hfresh
    · exact hw.key key st hst (hkeeps.retired ▸ hret)
    · have := hw.retired_lt
      omega
  target st' hst' hret := by
    rcases hk _ st' hst' with ⟨st, hst, hkeeps⟩ | hfresh
    · exact (hw.target st hst (hkeeps.retired ▸ hret)).trans hkeeps.written
    · have := hw.retired_lt
      omega
  segments st' hst' hret snapshot hsnapshot := by
    rcases hk _ st' hst' with ⟨st, hst, hkeeps⟩ | hfresh
    · obtain ⟨segment, hlookup, hfile, hflushed, hwrite⟩ :=
        hw.segments st hst (hkeeps.retired ▸ hret) snapshot hsnapshot
      rcases hkeeps.dirty _ segment hlookup with hclean | ⟨segment', hlookup', hfile', hle, heq⟩
      · rw [StreamState.clean, decide_eq_true_eq] at hclean
        omega
      · exact ⟨segment', hlookup', hfile'.trans hfile, heq ▸ hflushed, hwrite.trans hle⟩
    · have := hw.retired_lt
      omega
  all := hw.all
  file := hw.file

theorem FlusherInv.kept {s' : RuntimeState} {flusher : Flusher} (hf : FlusherInv s h flusher)
    (hn : s.nextRetired ≤ s'.nextRetired) (hk : ∀ key, DirtyKept s s' key) :
    FlusherInv s' h flusher := by
  match flusher, hf with
  | .idle, _ => trivial
  | .sync _ _ none, hf => exact ⟨hf.1.kept hn hk, hf.2⟩
  | .sync _ _ (some (_, _)), hf => exact ⟨hf.1.kept hn hk, hf.2⟩
  | .publish _ none, hf => exact ⟨hf.1.kept hn hk, hf.2⟩
  | .publish _ (some _), _ => trivial

theorem WorkInv.extend {h' : History} (he : h.Extends h') {work : FlushWork}
    (hw : WorkInv s h work) : WorkInv s h' work where
  retired_lt := hw.retired_lt
  key := hw.key
  target := hw.target
  segments := hw.segments
  all w hmem hret hle := (hw.all w (he.writes ▸ hmem) hret hle).imp he.covered id
  file w hmem hret snapshot hsnapshot hstart hepoch :=
    (hw.file w (he.writes ▸ hmem) hret snapshot hsnapshot hstart hepoch).imp he.covered id

theorem snapshotCovered_extend {h' : History} (he : h.Extends h') {retired : Nat}
    {snapshot : FlushSnapshot} (hc : StreamState.SnapshotCovered h retired snapshot) :
    StreamState.SnapshotCovered h' retired snapshot :=
  fun w hw hret hstart hepoch => he.covered (hc w (he.writes ▸ hw) hret hstart hepoch)

theorem FlusherInv.extend {h' : History} (he : h.Extends h') {flusher : Flusher}
    (hf : FlusherInv s h flusher) : FlusherInv s h' flusher := by
  match flusher, hf with
  | .idle, _ => trivial
  | .sync _ _ none, hf =>
    exact ⟨hf.1.extend he, hf.2.1, fun x hx hrest =>
      snapshotCovered_extend he (hf.2.2 x hx hrest)⟩
  | .sync _ _ (some (_, _)), hf =>
    obtain ⟨hwork, hsub, hmem, hrunning, hcovered⟩ := hf
    refine ⟨hwork.extend he, hsub, hmem, fun w hw hret hstart hepoch => ?_, fun x hx hrest hne =>
      snapshotCovered_extend he (hcovered x hx hrest hne)⟩
    exact (hrunning w (he.writes ▸ hw) hret hstart hepoch).imp he.covered id
  | .publish _ none, hf =>
    exact ⟨hf.1.extend he, fun x hx => snapshotCovered_extend he (hf.2 x hx)⟩
  | .publish _ (some _), _ => trivial

/-! ## Steps that are not quiet -/

/-- Taking work with something to sync. -/
theorem takeFlushWork_some {s' : RuntimeState} (hs : StateInv s h) {key : Text} {work : FlushWork}
    (heq : s.takeFlushWork key = some (s', some work)) :
    s' = s ∧ FlusherInv s h (.sync work work.segments none) := by
  unfold RuntimeState.takeFlushWork at heq
  split at heq
  · exact absurd heq (by simp)
  rename_i st hst
  split_ifs at heq
  split at heq
  · exact absurd heq (by simp)
  obtain ⟨rfl, hwork⟩ := Prod.mk.inj (Option.some.inj heq)
  obtain rfl := Option.some.inj hwork
  have hsound := hs.sound key st hst
  have hunique {st' : StreamState} (hst' : s.streams key = some st') : st' = st :=
    Option.some.inj (hst'.symm.trans hst)
  refine ⟨rfl, ⟨hs.retired_lt key st hst, ?_, ?_, ?_, ?_, ?_⟩, List.Subset.refl _, ?_⟩
  · exact fun key' st' hst' hret => hs.distinct key' key st' st hst' hst hret
  · intro st' hst' _
    rw [hunique hst']
  · intro st' hst' _ snapshot hsnapshot
    rw [hunique hst']
    obtain ⟨entry, hentry, rfl⟩ := List.mem_map.1 hsnapshot
    obtain ⟨hmem, hdirty⟩ := List.mem_filter.1 hentry
    simp only [Bool.and_eq_true, Bool.not_eq_true', StreamState.clean_eq_false] at hdirty
    exact ⟨entry.2, AList.mem_lookup_iff.2 hmem, rfl, hdirty.2, Nat.le_refl _⟩
  · intro w hw hret _
    rcases hsound.dirty w hw hret with hcov | ⟨segment, hlookup, _, hlt, hle⟩
    · exact .inl hcov
    have hclean : StreamState.clean segment = false := StreamState.clean_eq_false.2 (by omega)
    obtain ⟨hne, hlast⟩ := hsound.lastSeq _ segment hlookup hclean
    refine .inr ⟨{ start := w.start, epoch := segment.writeEpoch, file := segment.file },
      List.mem_map.2 ⟨⟨w.start, segment⟩, List.mem_filter.2 ⟨AList.mem_lookup_iff.1 hlookup, ?_⟩,
        rfl⟩, rfl, hle⟩
    simp [hne, hlast, hclean]
  · intro w hw hret snapshot hsnapshot hstart _
    rcases hsound.dirty w hw hret with hcov | ⟨segment, hlookup, hfile, _⟩
    · exact .inl hcov
    obtain ⟨entry, hentry, rfl⟩ := List.mem_map.1 hsnapshot
    have hlookup' := AList.mem_lookup_iff.2 (List.mem_filter.1 hentry).1
    rw [hstart] at hlookup
    obtain rfl : segment = entry.2 := Option.some.inj (hlookup.symm.trans hlookup')
    exact .inr hfile.symm
  · exact fun snapshot hsnapshot hrest => absurd hsnapshot hrest

/-- The end of a round: the writer sees the same files, and the frontier is sound. -/
theorem publishFlush_good (hs : StateInv s h) {work : FlushWork} {error : Option String}
    (hf : FlusherInv s h (.publish work error)) :
    StateInv (s.publishFlush work error) h ∧
      s.nextRetired ≤ (s.publishFlush work error).nextRetired ∧
      ∀ key, FilesKept s (s.publishFlush work error) key := by
  unfold RuntimeState.publishFlush
  split
  · exact ⟨hs, Nat.le_refl _, (Calm.refl s).files⟩
  rename_i st hst
  split_ifs with hret
  · exact ⟨hs, Nat.le_refl _, (Calm.refl s).files⟩
  rw [not_not] at hret
  have hsound := hs.sound _ st hst
  cases error with
  | some error =>
    have hfailed (failure : Option String) : Good s
        ((s.put work.stream { st with error := failure }).retireClosedStream work.stream) h := by
      have hsame : st.Quiet { st with error := failure } ∧
          StreamState.Sound h { st with error := failure } :=
        hsound.same rfl rfl rfl rfl rfl rfl
      exact (Good.put hs hst hsame.1 hsame.2).retire work.stream
    exact ⟨(hfailed _).1, (hfailed _).2.next_le, (hfailed _).2.files⟩
  | none =>
    obtain ⟨hwork, hcovered⟩ := hf
    obtain ⟨hretired, hwritten⟩ := StreamState.markAll_counters st work.segments
    have hflushed : (st.flushed work).Sound h := by
      refine hsound.flush (hwork.target st hst hret) (fun x hx => hret ▸ hcovered x hx) ?_ ?_
      · intro snapshot hsnapshot segment hlookup
        obtain ⟨segment', hlookup', _, _, hle⟩ := hwork.segments st hst hret snapshot hsnapshot
        obtain rfl : segment' = segment := Option.some.inj (hlookup'.symm.trans hlookup)
        exact hle
      · intro w hw hwret hle
        rcases hwork.all w hw (hwret.trans hret) hle with hcov | ⟨x, hx, hstart, hepoch⟩
        · exact hcov
        · exact hcovered x hx w hw (hwret.trans hret) hstart hepoch
    have hquiet := (StreamState.closeReadySegments_quiet _ hflushed.sealed_le).1
    have hkeeps : KeepsFiles st (st.flushed work).closeReadySegments := by
      refine ⟨hquiet.retired.trans hretired, hquiet.written.trans hwritten, fun start x hx => ?_⟩
      obtain ⟨y, hy, hsame⟩ := hquiet.old start x hx
      obtain ⟨z, hz, hfile, _⟩ := StreamState.markAll_lookup hy
      exact ⟨z, hz, hsame.file.trans hfile⟩
    have hput := hs.put hst (hquiet.retired.trans hretired) hflushed.closeReady
    obtain ⟨hstate, hcalm⟩ := hput.retireClosedStream work.stream
    refine ⟨hstate, hcalm.next_le, fun key => ?_⟩
    have hkept := FilesKept.put hst hkeeps key
    refine FilesKept.trans ?_ hkept (hcalm.files key)
    exact Nat.le_refl _

/-- Adding a segment with a file that has just been opened. -/
theorem insertSegment_good (hs : StateInv s h) (batch : AppendBatch) (file : Nat)
    (hv : Validated s h batch) :
    StateInv (s.insertSegment batch file).1 h ∧
      s.nextRetired ≤ (s.insertSegment batch file).1.nextRetired ∧
      (∀ key, DirtyKept s (s.insertSegment batch file).1 key) ∧
      Validated (s.insertSegment batch file).1 h batch ∧
      HoldsFile (s.insertSegment batch file).1 batch (s.insertSegment batch file).2 := by
  obtain ⟨hs', hcalm, hst⟩ := hs.entry batch.stream
  have hv' := hv.kept hs.write_lt (hcalm.files batch.stream)
  rw [RuntimeState.insertSegment]
  set s' := (s.entry batch.stream).1
  set st := (s.entry batch.stream).2
  simp only
  split
  · rename_i existing hlookup
    refine ⟨hs', hcalm.next_le, hcalm.dirty, hv', fun st' segment hst' hsegment => ?_⟩
    obtain rfl : st = st' := Option.some.inj (hst.symm.trans hst')
    rw [Option.some.inj (hlookup.symm.trans hsegment)]
  · rename_i hlookup
    let opened : SegmentState := { path := batch.path, file := file }
    have hkeeps : KeepsDirty st
        { st with segments := st.segments.insert batch.segmentStart opened } := by
      refine ⟨rfl, Nat.le_refl _, fun start segment hsegment => .inr ⟨segment, ?_, rfl,
        Nat.le_refl _, rfl⟩⟩
      refine (AList.lookup_insert_ne ?_).trans hsegment
      rintro rfl
      exact absurd (hsegment.symm.trans hlookup) (by simp)
    refine ⟨hs'.put hst rfl ((hs'.sound _ st hst).insertSegment hlookup _ _), hcalm.next_le,
      fun key => (hcalm.dirty key).trans hcalm.next_le (DirtyKept.put hst hkeeps key), ?_, ?_⟩
    · obtain ⟨hne, written, hitems, hcontinues⟩ := hv'
      refine ⟨hne, written, hitems, fun st' hst' => ?_⟩
      rw [streams_put] at hst'
      obtain rfl := Option.some.inj hst'
      exact hcontinues st hst
    · intro st' segment hst' hsegment
      rw [streams_put] at hst'
      obtain rfl := Option.some.inj hst'
      rw [AList.lookup_insert] at hsegment
      rw [← Option.some.inj hsegment]

/-- Seeding: the stream has neither records nor segments. -/
theorem seed_good (hs : StateInv s h) (key : Text) (seq : Nat) :
    StateInv (s.seed key seq) h ∧ s.nextRetired ≤ (s.seed key seq).nextRetired ∧
      (∀ key', DirtyKept s (s.seed key seq) key') ∧
      ∀ key', key' ≠ key → FilesKept s (s.seed key seq) key' := by
  obtain ⟨hs', hcalm, hst⟩ := hs.entry key
  rw [RuntimeState.seed, RuntimeState.modify]
  set s' := (s.entry key).1
  set st := (s.entry key).2
  simp only
  have hother {st' : StreamState} (key' : Text) (hne : key' ≠ key) :
      FilesKept s (s'.put key st') key' := by
    refine (hcalm.files key').trans hcalm.next_le fun other ho => ?_
    rw [streams_put_of_ne hne] at ho
    exact .inl ⟨other, ho, (StreamState.Quiet.refl other).keepsFiles⟩
  split_ifs with hempty
  · rw [Bool.and_eq_true, decide_eq_true_eq] at hempty
    have hkeeps : KeepsDirty st { st with
        writtenSeq := max st.writtenSeq seq
        durableSeq := max st.durableSeq seq
        requestedSeq := max st.requestedSeq (max st.durableSeq seq) } :=
      ⟨rfl, Nat.le_max_left _ _, fun start segment hsegment =>
        .inr ⟨segment, hsegment, rfl, Nat.le_refl _, rfl⟩⟩
    exact ⟨hs'.put hst rfl ((hs'.sound _ st hst).seeded hempty.1 seq _), hcalm.next_le,
      fun key' => (hcalm.dirty key').trans hcalm.next_le (DirtyKept.put hst hkeeps key'), hother⟩
  · have hgood := Good.trans ⟨hs', hcalm⟩
      (Good.put hs' hst (StreamState.Quiet.refl st) (hs'.sound _ st hst))
    exact ⟨hgood.1, hgood.2.next_le, hgood.2.dirty, hother⟩

/-! ## Publishing records -/

/-- What an append that is published does to a stream, with the flush requests of its records. -/
def publishedWith (st : StreamState) (batch : AppendBatch) (segment : SegmentState)
    (written requested : Nat) : StreamState :=
  { st.published batch segment written with requestedSeq := requested }

theorem publishedWith_lookup (st : StreamState) (batch : AppendBatch) (segment : SegmentState)
    (written requested : Nat) :
    (publishedWith st batch segment written requested).segments.lookup batch.segmentStart =
      some (StreamState.appended segment batch written) :=
  AList.lookup_insert _

theorem publishAppend_cases (hs : StateInv s h) {batch : AppendBatch} (hv : Validated s h batch) :
    (∃ error, s.publishAppend batch = ((s.entry batch.stream).1, some error)) ∨
    ∃ segment written requested,
      (s.entry batch.stream).2.segments.lookup batch.segmentStart = some segment ∧
      RuntimeState.monotonicError written batch.items = none ∧
      (s.entry batch.stream).2.Continues h written ∧
      s.publishAppend batch = ((s.entry batch.stream).1.put batch.stream
        (publishedWith (s.entry batch.stream).2 batch segment written requested), none) := by
  obtain ⟨_, hcalm, hst⟩ := hs.entry batch.stream
  obtain ⟨hne, written, hitems, hcontinues⟩ := hv.kept hs.write_lt (hcalm.files batch.stream)
  rw [RuntimeState.publishAppend]
  simp only
  cases hlookup : (s.entry batch.stream).2.segments.lookup batch.segmentStart with
  | none => exact .inl ⟨_, rfl⟩
  | some segment =>
    simp only [StreamState.lastSeq_of_monotonic hitems hne]
    cases ((batch.items.filter (·.durable)).map (·.seq)).max? with
    | none => exact .inr ⟨segment, written, _, rfl, hitems, hcontinues _ hst, rfl⟩
    | some target => exact .inr ⟨segment, written, _, rfl, hitems, hcontinues _ hst, rfl⟩

/-- The records come after a round of syncs: they are beyond its target and its snapshots. -/
def Beyond (work : FlushWork) (writes : List Write) : Prop :=
  ∀ w ∈ writes, w.retired = work.retired → work.target < w.seq ∧
    ∀ snapshot ∈ work.segments, w.start = snapshot.start → snapshot.epoch < w.epoch

theorem snapshotCovered_record {work : FlushWork} {writes : List Write} (hb : Beyond work writes)
    {snapshot : FlushSnapshot} (hmem : snapshot ∈ work.segments)
    (hc : StreamState.SnapshotCovered h work.retired snapshot) :
    StreamState.SnapshotCovered (h.record writes) work.retired snapshot := by
  intro w hw hret hstart hepoch
  rcases List.mem_append.1 hw with hw | hw
  · exact absurd hepoch (Nat.not_le.2 ((hb w hw hret).2 snapshot hmem hstart))
  · exact hc w hw hret hstart hepoch

theorem WorkInv.record {work : FlushWork} {writes : List Write} (hb : Beyond work writes)
    (hw : WorkInv s h work) : WorkInv s (h.record writes) work where
  retired_lt := hw.retired_lt
  key := hw.key
  target := hw.target
  segments := hw.segments
  all w hmem hret hle := by
    rcases List.mem_append.1 hmem with hmem | hmem
    · exact absurd hle (Nat.not_le.2 (hb w hmem hret).1)
    · exact hw.all w hmem hret hle
  file w hmem hret snapshot hsnapshot hstart hepoch := by
    rcases List.mem_append.1 hmem with hmem | hmem
    · exact absurd hepoch (Nat.not_le.2 ((hb w hmem hret).2 snapshot hsnapshot hstart))
    · exact hw.file w hmem hret snapshot hsnapshot hstart hepoch

theorem FlusherInv.record {flusher : Flusher} {writes : List Write}
    (hb : ∀ work, WorkInv s h work → Beyond work writes) (hf : FlusherInv s h flusher) :
    FlusherInv s (h.record writes) flusher := by
  match flusher, hf with
  | .idle, _ => trivial
  | .sync _ _ none, hf =>
    have hbeyond := hb _ hf.1
    exact ⟨hf.1.record hbeyond, hf.2.1, fun x hx hrest =>
      snapshotCovered_record hbeyond hx (hf.2.2 x hx hrest)⟩
  | .sync _ _ (some (_, _)), hf =>
    obtain ⟨hwork, hsub, hmem, hrunning, hcovered⟩ := hf
    have hbeyond := hb _ hwork
    refine ⟨hwork.record hbeyond, hsub, hmem, fun w hw hret hstart hepoch => ?_,
      fun x hx hrest hne => snapshotCovered_record hbeyond hx (hcovered x hx hrest hne)⟩
    rcases List.mem_append.1 hw with hw | hw
    · exact absurd hepoch (Nat.not_le.2 ((hbeyond w hw hret).2 _ hmem hstart))
    · exact hrunning w hw hret hstart hepoch
  | .publish _ none, hf =>
    have hbeyond := hb _ hf.1
    exact ⟨hf.1.record hbeyond, fun x hx => snapshotCovered_record hbeyond hx (hf.2 x hx)⟩
  | .publish _ (some _), _ => trivial

/-- Publishing a batch keeps the state good, with its records in the history. -/
theorem published_stateInv (hs : StateInv s h) {batch : AppendBatch} {st : StreamState}
    {segment : SegmentState} {written : Nat} (hst : s.streams batch.stream = some st)
    (hlookup : st.segments.lookup batch.segmentStart = some segment)
    (hitems : RuntimeState.monotonicError written batch.items = none)
    (hcontinues : st.Continues h written) (hne : batch.items ≠ []) (requested time : Nat) :
    StateInv (s.put batch.stream (publishedWith st batch segment written requested))
      (h.record (writesOf st.retired batch segment.file (segment.writeEpoch + batch.items.length)
        time)) := by
  have hsound := (hs.sound _ st hst).publish hlookup rfl hitems hne hcontinues time
  have hrequested : (publishedWith st batch segment written requested).Sound (h.record
      (writesOf st.retired batch segment.file (segment.writeEpoch + batch.items.length) time)) :=
    { hsound with }
  have hretired : (publishedWith st batch segment written requested).retired = st.retired := rfl
  exact hs.putRecord hst hretired (fun w hw => (StreamState.mem_writesOf hitems hw).1) hrequested

theorem published_keepsDirty {batch : AppendBatch} {st : StreamState} {segment : SegmentState}
    {written : Nat} (hlookup : st.segments.lookup batch.segmentStart = some segment)
    (hle : st.writtenSeq ≤ written) (requested : Nat) :
    KeepsDirty st (publishedWith st batch segment written requested) := by
  refine ⟨rfl, hle.trans (Nat.le_add_right _ _), fun start other ho => .inr ?_⟩
  by_cases hstart : start = batch.segmentStart
  · subst hstart
    obtain rfl : segment = other := Option.some.inj (hlookup.symm.trans ho)
    exact ⟨_, publishedWith_lookup st batch segment written requested, rfl, Nat.le_add_right _ _,
      rfl⟩
  · exact ⟨other, (AList.lookup_insert_ne hstart).trans ho, rfl, Nat.le_refl _, rfl⟩

/-- The flusher may see a batch being published. -/
theorem published_flusherInv {batch : AppendBatch} {st : StreamState}
    {segment : SegmentState} {written : Nat} (hst : s.streams batch.stream = some st)
    (hlookup : st.segments.lookup batch.segmentStart = some segment)
    (hitems : RuntimeState.monotonicError written batch.items = none)
    (hcontinues : st.Continues h written) (hne : batch.items ≠ []) (requested time : Nat)
    {flusher : Flusher} (hf : FlusherInv s h flusher) :
    FlusherInv (s.put batch.stream (publishedWith st batch segment written requested))
      (h.record (writesOf st.retired batch segment.file (segment.writeEpoch + batch.items.length)
        time)) flusher := by
  have hlen := List.length_pos_iff.2 hne
  have hle := hcontinues.written_le
  -- the round was taken before these records, so it is about older sequences and epochs
  have hbeyond (work : FlushWork) (hw : WorkInv s h work) : Beyond work (writesOf st.retired batch
      segment.file (segment.writeEpoch + batch.items.length) time) := by
    intro w hmem hret
    obtain ⟨hretired, hstart, _, hepoch, _, hseq, _⟩ := StreamState.mem_writesOf hitems hmem
    have hround : st.retired = work.retired := hretired.symm.trans hret
    have hkey := hw.key _ st hst hround
    have htarget := hw.target st (hkey ▸ hst) hround
    refine ⟨by omega, fun snapshot hsnapshot hsame => ?_⟩
    obtain ⟨segment', hlookup', _, _, hwrite⟩ :=
      hw.segments st (hkey ▸ hst) hround snapshot hsnapshot
    rw [← hsame, hstart] at hlookup'
    obtain rfl : segment = segment' := Option.some.inj (hlookup.symm.trans hlookup')
    omega
  have hrecorded : FlusherInv s (h.record (writesOf st.retired batch segment.file
      (segment.writeEpoch + batch.items.length) time)) flusher := hf.record hbeyond
  exact hrecorded.kept (Nat.le_refl _) (DirtyKept.put hst
    (published_keepsDirty hlookup hle requested))

/-! ## Syncing -/

/-- A sync starts after everything that its snapshot stands for has been written. -/
theorem startSync_flusherInv {work : FlushWork} {rest : List FlushSnapshot}
    {snapshot : FlushSnapshot} (hf : FlusherInv s h (.sync work rest none))
    (hmem : snapshot ∈ rest) (htime : ∀ w ∈ h.writes, w.time < h.clock) :
    FlusherInv s h (.sync work (rest.erase snapshot) (some (snapshot, h.clock))) := by
  obtain ⟨hwork, hsub, hcovered⟩ := hf
  refine ⟨hwork, fun x hx => hsub (List.mem_of_mem_erase hx), hsub hmem, ?_, ?_⟩
  · intro w hw hret hstart hepoch
    exact (hwork.file w hw hret snapshot (hsub hmem) hstart hepoch).imp id fun hfile =>
      ⟨hfile, htime w hw⟩
  · intro x hx hrest hne
    exact hcovered x hx fun hin => hrest ((List.mem_erase_of_ne hne).2 hin)

/-- A successful sync covers its snapshot. -/
theorem endSync_flusherInv {work : FlushWork} {rest : List FlushSnapshot}
    {snapshot : FlushSnapshot} {started : Nat}
    (hf : FlusherInv s h (.sync work rest (some (snapshot, started)))) :
    FlusherInv s { h with syncs := { file := snapshot.file, started := started } :: h.syncs }
      (if rest.isEmpty then .publish work none else .sync work rest none) := by
  have he : h.Extends { h with
      syncs := { file := snapshot.file, started := started } :: h.syncs } :=
    ⟨rfl, fun x hx => List.mem_cons_of_mem _ hx, Nat.le_refl _⟩
  obtain ⟨hwork, hsub, hmem, hrunning, hcovered⟩ := hf.extend he
  have hdone : ∀ x ∈ work.segments, x ∉ rest → StreamState.SnapshotCovered { h with
      syncs := { file := snapshot.file, started := started } :: h.syncs } work.retired x := by
    intro x hx hrest
    by_cases hne : x = snapshot
    · subst hne
      intro w hw hret hstart hepoch
      rcases hrunning w hw hret hstart hepoch with hcov | ⟨hfile, htime⟩
      · exact hcov
      · exact ⟨_, List.mem_cons_self, hfile.symm, htime⟩
    · exact hcovered x hx hrest hne
  split_ifs with hrest
  · refine ⟨hwork, fun x hx => hdone x hx ?_⟩
    rw [List.isEmpty_iff.1 hrest]
    exact List.not_mem_nil
  · exact ⟨hwork, hsub, hdone⟩

end Sunpack.Journal
