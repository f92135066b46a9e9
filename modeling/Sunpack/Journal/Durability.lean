import Sunpack.Journal.Threads

/-!
# Durable means synced

In every reachable state of the journal runtime, a ticket that is told a sequence is durable or
sealed stands for records that a sync has covered: on a live stream, on a retired one, and whatever
failed or was opened again in between. No record up to that sequence is published later.
-/

namespace Sunpack.Journal

/-! ## The invariant -/

structure Inv (w : World) : Prop where
  state : StateInv w.state w.history
  time_lt : ∀ x ∈ w.history.writes, x.time < w.history.clock
  writer : WriterInv w.state w.history w.writer
  flusher : FlusherInv w.state w.history w.flusher

/-- Written frontiers do not go back, and records are published beyond them. -/
structure Later (w w' : World) : Prop where
  next_le : w.state.nextRetired ≤ w'.state.nextRetired
  streams : ∀ key st', w'.state.streams key = some st' →
    (∃ st, w.state.streams key = some st ∧ st'.retired = st.retired ∧
      st.writtenSeq ≤ st'.writtenSeq) ∨ w.state.nextRetired ≤ st'.retired
  writes : ∀ x ∈ w'.history.writes, x ∈ w.history.writes ∨
    ∃ key st, w.state.streams key = some st ∧ st.retired = x.retired ∧ st.writtenSeq < x.seq

theorem Later.of_dirtyKept {w w' : World} (hn : w.state.nextRetired ≤ w'.state.nextRetired)
    (hk : ∀ key, DirtyKept w.state w'.state key) (hwrites : w'.history.writes = w.history.writes) :
    Later w w' where
  next_le := hn
  streams key st' hst' := (hk key st' hst').imp
    (fun ⟨st, hst, hkeeps⟩ => ⟨st, hst, hkeeps.retired, hkeeps.written⟩) id
  writes _ hx := .inl (hwrites ▸ hx)

theorem Later.of_filesKept {w w' : World} (hn : w.state.nextRetired ≤ w'.state.nextRetired)
    (hk : ∀ key, FilesKept w.state w'.state key) (hwrites : w'.history.writes = w.history.writes) :
    Later w w' where
  next_le := hn
  streams key st' hst' := (hk key st' hst').imp
    (fun ⟨st, hst, hkeeps⟩ => ⟨st, hst, hkeeps.retired, Nat.le_of_eq hkeeps.written.symm⟩)
    (fun hfresh => hfresh.1)
  writes _ hx := .inl (hwrites ▸ hx)

theorem Later.of_state {w : World} {s' : RuntimeState} (hk : ∀ key, DirtyKept w.state s' key)
    (hn : w.state.nextRetired ≤ s'.nextRetired) : Later w { w with state := s' } :=
  .of_dirtyKept hn hk rfl

/-- What a step from a good world gives. -/
def Keeps (w w' : World) : Prop := Inv w' ∧ Later w w'

theorem inv_init : Inv {} where
  state := by
    constructor <;> intros <;> simp_all
  time_lt := by simp
  writer := trivial
  flusher := trivial

variable {w w' : World}

/-- A quiet critical section of a caller. -/
theorem Inv.calm (hw : Inv w) {s' : RuntimeState} (hg : Good w.state s' w.history) :
    Keeps w { w with state := s' } := by
  refine ⟨⟨hg.1, hw.time_lt, ?_, ?_⟩, .of_dirtyKept hg.2.next_le hg.2.dirty rfl⟩
  · exact hw.writer.kept hw.state.write_lt fun batch _ _ => hg.2.files batch.stream
  · exact hw.flusher.kept hg.2.next_le hg.2.dirty

/-- A quiet critical section of the writer, which then knows `writer`. -/
theorem Inv.writes (hw : Inv w) {s' : RuntimeState} (hg : Good w.state s' w.history)
    {writer : Writer} (hwriter : WriterInv s' w.history writer) :
    Keeps w { w with state := s', writer := writer } := by
  refine ⟨⟨hg.1, hw.time_lt, hwriter, ?_⟩, .of_dirtyKept hg.2.next_le hg.2.dirty rfl⟩
  exact hw.flusher.kept hg.2.next_le hg.2.dirty

theorem good_refl (hw : Inv w) : Good w.state w.state w.history := ⟨hw.state, .refl _⟩

/-- The writer goes on without a critical section. -/
theorem Inv.writerTo (hw : Inv w) {writer : Writer}
    (hwriter : WriterInv w.state w.history writer) : Keeps w { w with writer := writer } :=
  hw.writes (good_refl hw) hwriter

theorem Inv.appendFailed (hw : Inv w) (batch : AppendBatch) (error : String) :
    Keeps w (w.appendFailed batch error) :=
  hw.writerTo trivial

/-! ## Steps of the writer -/

theorem validate_good {batch : AppendBatch} (hne : batch.items ≠ [])
    (hitems : w.state.validateAppend batch = none) : Validated w.state w.history batch := by
  refine ⟨hne, _, hitems, fun st hst => .inl ?_⟩
  simp [hst]

theorem lookup_good {s : RuntimeState} {batch : AppendBatch} {file : Nat}
    (hlookup : s.lookupSegment batch = .ok (some file)) : HoldsFile s batch file := by
  intro st segment hst hsegment
  simp only [RuntimeState.lookupSegment, hst, Option.bind_some, hsegment] at hlookup
  split_ifs at hlookup
  exact Option.some.inj (Except.ok.inj hlookup)

/-- Publishing a batch: its records go to the history, with the file they were written to. -/
theorem publish_good (hw : Inv w) {batch : AppendBatch} {file time : Nat}
    (hinv : AppendInv w.state w.history batch (.publish file time))
    (hs : w.stepAppend batch (.publish file time) .publish = some w') : Keeps w w' := by
  obtain ⟨hvalid, hfile, htime⟩ := hinv
  obtain ⟨hstate, hcalm, hst⟩ := hw.state.entry batch.stream
  have hentered : Keeps w { w with state := (w.state.entry batch.stream).1 } :=
    hw.calm ⟨hstate, hcalm⟩
  rcases publishAppend_cases hw.state hvalid with ⟨error, heq⟩ |
    ⟨segment, written, requested, hlookup, hitems, hcontinues, heq⟩
  · simp only [World.stepAppend, heq] at hs
    exact Option.some.inj hs ▸ hw.writes ⟨hstate, hcalm⟩ trivial
  · obtain rfl : segment.file = file := hfile.kept (hcalm.files _) _ segment hst hlookup
    simp only [World.stepAppend, heq, streams_put, Option.bind_some, publishedWith_lookup,
      Option.map_some, Option.getD_some] at hs
    obtain rfl := Option.some.inj hs
    refine ⟨⟨published_stateInv hstate hst hlookup hitems hcontinues hvalid.1 requested time, ?_,
      trivial, published_flusherInv hst hlookup hitems hcontinues hvalid.1 requested time
        hentered.1.flusher⟩, ?_⟩
    · intro x hx
      rcases List.mem_append.1 hx with hx | hx
      · rw [(StreamState.mem_writesOf hitems hx).2.2.2.2.1]
        exact htime
      · exact hw.time_lt x hx
    · have hle := hcontinues.written_le
      have hkept := DirtyKept.put hst (published_keepsDirty hlookup hle requested)
      have hdirty := fun key => (hcalm.dirty key).trans hcalm.next_le (hkept key)
      have hlater := Later.of_state hdirty hcalm.next_le
      refine ⟨hlater.next_le, hlater.streams, fun x hx => ?_⟩
      rcases List.mem_append.1 hx with hx | hx
      swap
      · exact .inl hx
      obtain ⟨hret, _, _, _, _, hlt, _⟩ := StreamState.mem_writesOf hitems hx
      -- a stream that has just been created has no segment to publish to
      rcases hcalm.files _ _ hst with ⟨st, hst₀, hkeeps⟩ | ⟨_, _, hnone⟩
      · have hretired := hkeeps.retired
        have hwritten := hkeeps.written
        exact .inr ⟨_, st, hst₀, hretired.symm.trans hret.symm, by omega⟩
      · exact absurd (hlookup.symm.trans (hnone _)) (by simp)

theorem stepAppend_good (hw : Inv w) {batch : AppendBatch} {stage : AppendStage}
    (hwriter : w.writer = .append batch stage) {a : Action}
    (hs : w.stepAppend batch stage a = some w') : Keeps w w' := by
  have hinv : AppendInv w.state w.history batch stage := by
    have := hw.writer
    rwa [hwriter] at this
  unfold World.stepAppend at hs
  split at hs
  · split_ifs at hs with hempty
    · exact Option.some.inj hs ▸ hw.appendFailed batch _
    split at hs
    · exact Option.some.inj hs ▸ hw.appendFailed batch _
    · refine Option.some.inj hs ▸ hw.writerTo ?_
      exact fun hnil => hempty (List.isEmpty_iff.2 hnil)
  · split at hs
    · exact Option.some.inj hs ▸ hw.appendFailed batch _
    · rename_i hitems
      exact Option.some.inj hs ▸ hw.writerTo (validate_good hinv hitems)
  · split at hs
    · exact Option.some.inj hs ▸ hw.appendFailed batch _
    · rename_i file hlookup
      exact Option.some.inj hs ▸ hw.writerTo ⟨hinv, lookup_good hlookup⟩
    · exact Option.some.inj hs ▸ hw.writerTo hinv
  · split at hs
    · exact Option.some.inj hs ▸ hw.appendFailed batch _
    · obtain rfl := Option.some.inj hs
      exact ⟨⟨hw.state, hw.time_lt, hinv, hw.flusher⟩,
        .of_dirtyKept (Nat.le_refl _) (Calm.refl _).dirty rfl⟩
  · rename_i file
    obtain rfl := Option.some.inj hs
    obtain ⟨hstate, hn, hdirty, hvalid, hfile⟩ := insertSegment_good hw.state batch file hinv
    exact ⟨⟨hstate, hw.time_lt, ⟨hvalid, hfile⟩, hw.flusher.kept hn hdirty⟩,
      .of_dirtyKept hn hdirty rfl⟩
  · rename_i file _
    split at hs
    · exact Option.some.inj hs ▸ hw.appendFailed batch _
    · obtain rfl := Option.some.inj hs
      have he : w.history.Extends { w.history with clock := w.history.clock + 1 } :=
        ⟨rfl, List.Subset.refl _, Nat.le_succ _⟩
      exact ⟨⟨hw.state.extend he, fun x hx => Nat.lt_succ_of_lt (hw.time_lt x hx),
        ⟨hinv.1.extend he, hinv.2, Nat.lt_succ_self _⟩, hw.flusher.extend he⟩,
        .of_dirtyKept (Nat.le_refl _) (Calm.refl _).dirty rfl⟩
  · rename_i file time
    exact publish_good hw hinv hs
  · exact absurd hs (by simp)

theorem stepWriter_good (hw : Inv w) {a : Action} (hs : w.stepWriter w.writer a = some w') :
    Keeps w w' := by
  generalize hwriter : w.writer = writer at hs
  unfold World.stepWriter at hs
  split at hs
  · obtain rfl := Option.some.inj hs
    exact hw.calm (openStream_good hw.state _)
  · obtain rfl := Option.some.inj hs
    exact hw.calm (releaseStream_good hw.state _)
  · obtain rfl := Option.some.inj hs
    exact hw.calm (good_refl hw)
  · split_ifs at hs
    · exact Option.some.inj hs ▸ hw.calm (good_refl hw)
    · exact Option.some.inj hs ▸ hw.writerTo trivial
  · split_ifs at hs
    · exact Option.some.inj hs ▸ hw.calm (good_refl hw)
    · exact Option.some.inj hs ▸ hw.writerTo trivial
  · exact stepAppend_good hw hwriter hs
  · rename_i command
    have hgood := sealSegment_good hw.state command
    generalize w.state.sealSegment command = result at hs hgood
    obtain ⟨state, error⟩ := result
    cases error
    · exact Option.some.inj hs ▸ hw.writes hgood trivial
    · exact Option.some.inj hs ▸ hw.writes hgood trivial
  · rename_i stream error
    obtain rfl := Option.some.inj hs
    exact hw.writes (failStream_good hw.state stream error) trivial
  · exact absurd hs (by simp)

/-! ## Steps of the flusher -/

/-- The flusher goes on, perhaps with the clock or the syncs advanced. -/
theorem Inv.flusherTo (hw : Inv w) {h' : History} (he : w.history.Extends h') {flusher : Flusher}
    (hf : FlusherInv w.state h' flusher) :
    Keeps w { w with flusher := flusher, history := h' } := by
  refine ⟨⟨hw.state.extend he, fun x hx => ?_, hw.writer.extend he, hf⟩,
    .of_dirtyKept (Nat.le_refl _) (Calm.refl _).dirty he.writes⟩
  exact Nat.lt_of_lt_of_le (hw.time_lt x (he.writes ▸ hx)) he.clock

theorem stepFlusher_good (hw : Inv w) {a : Action} (hs : w.stepFlusher w.flusher a = some w') :
    Keeps w w' := by
  have hinv := hw.flusher
  generalize w.flusher = flusher at hs hinv
  unfold World.stepFlusher at hs
  split at hs
  · rename_i key
    obtain ⟨⟨state, work⟩, heq, rfl⟩ := Option.map_eq_some_iff.1 hs
    cases work with
    | none => exact hw.calm (takeFlushWork_none hw.state heq)
    | some work =>
      obtain ⟨rfl, hf⟩ := takeFlushWork_some hw.state heq
      exact hw.flusherTo (.refl _) hf
  · rename_i snapshot
    split_ifs at hs with hmem
    obtain rfl := Option.some.inj hs
    have he : w.history.Extends { w.history with clock := w.history.clock + 1 } :=
      ⟨rfl, List.Subset.refl _, Nat.le_succ _⟩
    exact hw.flusherTo he ((startSync_flusherInv hinv hmem hw.time_lt).extend he)
  · rename_i work rest snapshot started error
    split at hs
    · obtain rfl := Option.some.inj hs
      exact hw.flusherTo (.refl _) trivial
    · obtain rfl := Option.some.inj hs
      have he : w.history.Extends { w.history with
          syncs := { file := snapshot.file, started := started } :: w.history.syncs } :=
        ⟨rfl, fun x hx => List.mem_cons_of_mem _ hx, Nat.le_refl _⟩
      exact hw.flusherTo he (endSync_flusherInv hinv)
  · obtain rfl := Option.some.inj hs
    obtain ⟨hstate, hn, hfiles⟩ := publishFlush_good hw.state hinv
    refine ⟨⟨hstate, hw.time_lt, ?_, trivial⟩, ?_⟩
    · exact hw.writer.kept hw.state.write_lt fun batch _ _ => hfiles batch.stream
    · exact .of_filesKept hn hfiles rfl
  · exact absurd hs (by simp)

/-! ## Runs -/

theorem step_good (hw : Inv w) {a : Action} (hs : machine.step w a = some w') : Keeps w w' := by
  cases a with
  | ticket stream => exact Option.some.inj hs ▸ hw.calm (Good.entry hw.state stream)
  | requestFlush stream target =>
    exact Option.some.inj hs ▸ hw.calm (requestFlush_good hw.state stream target)
  | seed stream seq =>
    simp only [machine, World.step] at hs
    split_ifs at hs with happending
    obtain rfl := Option.some.inj hs
    obtain ⟨hstate, hn, hdirty, hfiles⟩ := seed_good hw.state stream seq
    refine ⟨⟨hstate, hw.time_lt, ?_, hw.flusher.kept hn hdirty⟩, .of_dirtyKept hn hdirty rfl⟩
    refine hw.writer.kept hw.state.write_lt fun batch stage hwriter => hfiles _ fun heq => ?_
    rw [World.appending, hwriter] at happending
    exact happending (decide_eq_true heq)
  | flushAll => exact Option.some.inj hs ▸ hw.calm (flushAll_good hw.state)
  | takeFlushWork stream => exact stepFlusher_good hw hs
  | startSync snapshot => exact stepFlusher_good hw hs
  | endSync error => exact stepFlusher_good hw hs
  | publishFlush => exact stepFlusher_good hw hs
  | _ => exact stepWriter_good hw hs

theorem inv_of_reachable (h : machine.Reachable w) : Inv w :=
  h.invariant inv_init fun _ _ _ hw hs => (step_good hw hs).1

/-- The records of an incarnation up to a sequence are these, and no others will be published. -/
structure Settled (retired seq : Nat) (writes : List Write) (w : World) : Prop where
  writes : ∀ x ∈ w.history.writes, x.retired = retired → x.seq ≤ seq → x ∈ writes
  written : ∀ key st, w.state.streams key = some st → st.retired = retired → seq ≤ st.writtenSeq
  retired_lt : retired < w.state.nextRetired

theorem Settled.later {retired seq : Nat} {writes : List Write} (hw : Settled retired seq writes w)
    (hl : Later w w') : Settled retired seq writes w' where
  writes x hx hret hle := by
    rcases hl.writes x hx with hx | ⟨key, st, hst, heq, hlt⟩
    · exact hw.writes x hx hret hle
    · have hwritten := hw.written key st hst (heq.trans hret)
      omega
  written key st' hst' hret := by
    rcases hl.streams key st' hst' with ⟨st, hst, heq, hle⟩ | hfresh
    · exact (hw.written key st hst (heq.symm.trans hret)).trans hle
    · have hlt := hw.retired_lt
      omega
  retired_lt := Nat.lt_of_lt_of_le hw.retired_lt hl.next_le

theorem Settled.run {retired seq : Nat} {writes : List Write} (hw : Settled retired seq writes w)
    (hinv : Inv w) (hrun : machine.Steps w w') : Settled retired seq writes w' := by
  have hstep (v : World) (a : Action) (v' : World) (hv : Inv v ∧ Settled retired seq writes v)
      (hs : machine.step v a = some v') : Inv v' ∧ Settled retired seq writes v' := by
    obtain ⟨hinv', hlater⟩ := step_good hv.1 hs
    exact ⟨hinv', hv.2.later hlater⟩
  exact (hrun.preserves hstep ⟨hinv, hw⟩).2

/-- A ticket for a durable or a sealed sequence is told that all is well. -/
def World.Answers (w : World) (key : Text) (retired seq : Nat) : Prop :=
  ∃ goal, goal ≠ .written ∧ w.state.waitFor key retired seq goal = some (.ok ())

theorem closedAnswer_ok {s : RuntimeState} {retired seq : Nat} {goal : TicketGoal}
    (h : s.closedAnswer retired seq goal = .ok ()) :
    ∃ frontier, s.frontiers retired = some frontier ∧ seq ≤ frontier.at goal := by
  unfold RuntimeState.closedAnswer at h
  split at h
  · exact absurd h (by simp)
  rename_i frontier hfrontier
  split at h
  · exact absurd h (by simp)
  split_ifs at h with hle
  exact ⟨frontier, hfrontier, hle⟩

theorem waitFor_ok {s : RuntimeState} {key : Text} {retired seq : Nat} {goal : TicketGoal}
    (h : s.waitFor key retired seq goal = some (.ok ())) :
    (∃ st, s.streams key = some st ∧ st.retired = retired ∧ seq ≤ st.frontier.at goal) ∨
      ∃ frontier, s.frontiers retired = some frontier ∧ seq ≤ frontier.at goal := by
  unfold RuntimeState.waitFor at h
  split at h
  · rename_i st hst
    by_cases hretired : st.retired = retired
    · rw [if_pos hretired] at h
      split at h
      · exact absurd h (by simp)
      split_ifs at h with hle
      exact .inl ⟨st, hst, hretired, hle⟩
    · rw [if_neg hretired] at h
      exact .inr (closedAnswer_ok (Option.some.inj h))
  · exact .inr (closedAnswer_ok (Option.some.inj h))

/-- The answer comes from a sound frontier that is durable up to the sequence. -/
theorem World.Answers.frontier (hinv : Inv w) {key : Text} {retired seq : Nat}
    (h : w.Answers key retired seq) :
    ∃ frontier, FrontierSound w.history retired frontier ∧ seq ≤ frontier.durable ∧
      retired < w.state.nextRetired ∧
      ∀ key st, w.state.streams key = some st → st.retired = retired →
        st.writtenSeq = frontier.written := by
  obtain ⟨goal, hgoal, hwait⟩ := h
  have hdurable {frontier : StreamFrontier} (hs : FrontierSound w.history retired frontier)
      (hle : seq ≤ frontier.at goal) : seq ≤ frontier.durable := by
    cases goal with
    | written => exact absurd rfl hgoal
    | durable => exact hle
    | sealed => exact hle.trans hs.sealed_le
  rcases waitFor_ok hwait with ⟨st, hst, rfl, hle⟩ | ⟨frontier, hfrontier, hle⟩
  · have hsound := (hinv.state.sound key st hst).frontier
    refine ⟨st.frontier, hsound, hdurable hsound hle, hinv.state.retired_lt key st hst, ?_⟩
    intro key' st' hst' heq
    obtain rfl := hinv.state.distinct key' key st' st hst' hst heq
    rw [Option.some.inj (hst'.symm.trans hst)]
    rfl
  · have hsound := hinv.state.frontier retired frontier hfrontier
    refine ⟨frontier, hsound, hdurable hsound hle,
      hinv.state.frontier_lt retired frontier hfrontier, fun key' st' hst' heq => ?_⟩
    have hnone := hinv.state.live key' st' hst'
    rw [heq, hfrontier] at hnone
    exact absurd hnone (by simp)

/-- What holds in every reachable state of the journal runtime. -/
structure Safe (w : World) : Prop where
  /-- Nothing is durable before it is written. -/
  live : ∀ key st, w.state.streams key = some st → st.durableSeq ≤ st.writtenSeq
  retired : ∀ retired frontier, w.state.frontiers retired = some frontier →
    frontier.durable ≤ frontier.written
  /-- Every record that an answer stands for is covered by a sync that started after its write. -/
  covered : ∀ key retired seq, w.Answers key retired seq → ∀ x ∈ w.history.writes,
    x.retired = retired → x.seq ≤ seq → w.history.Covered x
  /-- No record that an answer stands for is missing. -/
  dense : ∀ key retired seq, w.Answers key retired seq → ∀ x ∈ w.history.writes,
    x.retired = retired → ∀ n, x.seq ≤ n → n ≤ seq →
      ∃ y ∈ w.history.writes, y.retired = retired ∧ y.seq = n
  /-- No record that an answer stands for is published after it. -/
  settled : ∀ key retired seq, w.Answers key retired seq → ∀ w', machine.Steps w w' →
    ∀ x ∈ w'.history.writes, x.retired = retired → x.seq ≤ seq → x ∈ w.history.writes

theorem journal_safe (h : machine.Reachable w) : Safe w := by
  have hinv := inv_of_reachable h
  refine ⟨fun key st hst => (hinv.state.sound key st hst).durable_le,
    fun retired frontier hf => (hinv.state.frontier retired frontier hf).durable_le, ?_, ?_, ?_⟩
  · intro key retired seq hanswers x hx hret hle
    obtain ⟨frontier, hsound, hseq, _⟩ := hanswers.frontier hinv
    exact hsound.covered x hx hret (hle.trans hseq)
  · intro key retired seq hanswers x hx hret n hn hle
    obtain ⟨frontier, hsound, hseq, _⟩ := hanswers.frontier hinv
    exact hsound.dense x hx hret n hn ((hle.trans hseq).trans hsound.durable_le)
  · intro key retired seq hanswers w' hrun x hx hret hle
    obtain ⟨frontier, hsound, hseq, hlt, hwritten⟩ := hanswers.frontier hinv
    have hsettled : Settled retired seq w.history.writes w := by
      refine ⟨fun y hy _ _ => hy, fun key' st hst heq => ?_, hlt⟩
      rw [hwritten key' st hst heq]
      exact hseq.trans hsound.durable_le
    exact (hsettled.run hinv hrun).writes x hx hret hle

def twoRecords : AppendBatch :=
  { stream := [], path := [], segmentStart := 1, items := [⟨1, false⟩, ⟨2, true⟩] }

/-- Two records are appended and synced, and the stream is released and opened again. -/
def reopened : List Action :=
  [.openStream [], .append twoRecords, .encode none, .validate, .lookup, .openFile none, .insert,
    .write none, .publish, .takeFlushWork [], .startSync { start := 1, epoch := 2, file := 0 },
    .endSync none, .publishFlush, .releaseStream [], .openStream []]

theorem reopened_safe : ∃ w, machine.exec machine.init reopened = some w ∧ Safe w ∧
    w.state.waitFor [] 0 2 .durable = some (.ok ()) ∧
    w.state.waitFor [] 1 2 .durable = none := by
  refine ⟨_, rfl, journal_safe (@Lib.Machine.Reachable.of_exec _ _ _ _ reopened rfl), ?_, ?_⟩
  · decide
  · decide

end Sunpack.Journal
