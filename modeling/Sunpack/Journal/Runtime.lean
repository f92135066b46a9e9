import Sunpack.Journal.State
import Sunpack.Lib.Machine

/-!
# The journal runtime

The writer thread, the flusher thread and the callers of `watch_journal.rs`, interleaved between the
critical sections of `Journal.State`. Writes to a segment file, opening it and syncing it happen
without the lock, and each of them can fail.

The history is what the runtime is judged by: when the bytes of every published record had been
written and to which file, and which syncs of which file succeeded, with the time they started.
-/

namespace Sunpack.Journal

/-! ## History -/

/-- A published record of an incarnation. -/
structure Write where
  retired : Nat
  seq : Nat
  start : Nat
  file : Nat
  /-- The write epoch of the segment with this record. -/
  epoch : Nat
  time : Nat
deriving DecidableEq, Repr

/-- A successful `sync_all`. -/
structure Sync where
  file : Nat
  started : Nat
deriving DecidableEq, Repr

structure History where
  clock : Nat := 0
  writes : List Write := []
  syncs : List Sync := []

/-- A successful sync of the record's file started after the record had been written. -/
def History.Covered (h : History) (w : Write) : Prop :=
  ∃ sync ∈ h.syncs, sync.file = w.file ∧ w.time < sync.started

def History.record (h : History) (writes : List Write) : History :=
  { h with writes := writes ++ h.writes }

/-! ## Threads -/

/-- Where `write_append_batch` is. -/
inductive AppendStage
  | encode
  | validate
  | lookup
  | openFile
  | insert (file : Nat)
  | write (file : Nat)
  | publish (file time : Nat)
deriving DecidableEq, Repr

inductive Writer
  | idle
  | append (batch : AppendBatch) (stage : AppendStage)
  | seal (command : SealCommand)
  /-- Before `fail_stream`. -/
  | fail (stream : Text) (error : String)
deriving DecidableEq, Repr

inductive Flusher
  | idle
  /-- The segments that are still to be synced, and the sync that is running with its start. -/
  | sync (work : FlushWork) (rest : List FlushSnapshot) (running : Option (FlushSnapshot × Nat))
  | publish (work : FlushWork) (error : Option String)
deriving DecidableEq, Repr

structure World where
  state : RuntimeState := {}
  writer : Writer := .idle
  flusher : Flusher := .idle
  nextFile : Nat := 0
  history : History := {}

inductive Action
  /-- `NativeJournalTicket::new`. -/
  | ticket (stream : Text)
  | requestFlush (stream : Text) (target : Nat)
  | seed (stream : Text) (seq : Nat)
  | flushAll
  | openStream (stream : Text)
  | releaseStream (stream : Text)
  | barrier
  | append (batch : AppendBatch)
  /-- Building the payload; mixed kinds and failing encoders are errors. -/
  | encode (error : Option String)
  | validate
  | lookup
  | openFile (error : Option String)
  | insert
  | write (error : Option String)
  | publish
  | seal (command : SealCommand)
  | sealSegment
  | fail
  | takeFlushWork (stream : Text)
  | startSync (snapshot : FlushSnapshot)
  | endSync (error : Option String)
  | publishFlush
deriving DecidableEq, Repr

/-- The records of a batch as `publish_append` leaves them. -/
def writesOf (retired : Nat) (batch : AppendBatch) (file epoch time : Nat) : List Write :=
  batch.items.map fun item =>
    { retired := retired, seq := item.seq, start := batch.segmentStart, file := file,
      epoch := epoch, time := time }

namespace World

def appendFailed (w : World) (batch : AppendBatch) (error : String) : World :=
  { w with writer := .fail batch.stream s!"native Watch journal append failed: {error}" }

/-- One step of `write_append_batch`. -/
def stepAppend (w : World) (batch : AppendBatch) : AppendStage → Action → Option World
  | .encode, .encode error =>
    if batch.items.isEmpty then some (w.appendFailed batch "empty journal batch")
    else
      match error with
      | some error => some (w.appendFailed batch error)
      | none => some { w with writer := .append batch .validate }
  | .validate, .validate =>
    match w.state.validateAppend batch with
    | some error => some (w.appendFailed batch error)
    | none => some { w with writer := .append batch .lookup }
  | .lookup, .lookup =>
    match w.state.lookupSegment batch with
    | .error error => some (w.appendFailed batch error)
    | .ok (some file) => some { w with writer := .append batch (.write file) }
    | .ok none => some { w with writer := .append batch .openFile }
  | .openFile, .openFile error =>
    match error with
    | some error => some (w.appendFailed batch error)
    | none => some { w with
        writer := .append batch (.insert w.nextFile)
        nextFile := w.nextFile + 1 }
  | .insert file, .insert =>
    let (state, file) := w.state.insertSegment batch file
    some { w with state := state, writer := .append batch (.write file) }
  | .write file, .write error =>
    match error with
    | some error => some (w.appendFailed batch error)
    | none => some { w with
        writer := .append batch (.publish file w.history.clock)
        history := { w.history with clock := w.history.clock + 1 } }
  | .publish file time, .publish =>
    let (state, error) := w.state.publishAppend batch
    match error with
    | some error => some ({ w with state := state }.appendFailed batch error)
    | none =>
      let published := (state.streams batch.stream).bind fun stream =>
        (stream.segments.lookup batch.segmentStart).map fun segment =>
          writesOf stream.retired batch file segment.writeEpoch time
      some { w with
        state := state
        writer := .idle
        history := w.history.record (published.getD []) }
  | _, _ => none

def stepWriter (w : World) : Writer → Action → Option World
  | .idle, .openStream stream => some { w with state := w.state.openStream stream }
  | .idle, .releaseStream stream => some { w with state := w.state.releaseStream stream }
  | .idle, .barrier => some w
  | .idle, .append batch =>
    if w.state.streamFailed batch.stream then some w
    else some { w with writer := .append batch .encode }
  | .idle, .seal command =>
    if w.state.streamFailed command.stream then some w
    else some { w with writer := .seal command }
  | .append batch stage, action => w.stepAppend batch stage action
  | .seal command, .sealSegment =>
    let (state, error) := w.state.sealSegment command
    match error with
    | some error => some { w with state := state, writer := .fail command.stream error }
    | none => some { w with state := state, writer := .idle }
  | .fail stream error, .fail =>
    some { w with state := w.state.failStream stream error, writer := .idle }
  | _, _ => none

/-- The segments of a round are synced one by one; the order does not matter here. -/
def stepFlusher (w : World) : Flusher → Action → Option World
  | .idle, .takeFlushWork stream =>
    (w.state.takeFlushWork stream).map fun taken =>
      match taken.2 with
      | none => { w with state := taken.1 }
      | some work => { w with state := taken.1, flusher := .sync work work.segments none }
  | .sync work rest none, .startSync snapshot =>
    if snapshot ∈ rest then some { w with
      flusher := .sync work (rest.erase snapshot) (some (snapshot, w.history.clock))
      history := { w.history with clock := w.history.clock + 1 } }
    else none
  | .sync work rest (some (snapshot, started)), .endSync error =>
    match error with
    | some error => some { w with flusher := .publish work (some error) }
    | none => some { w with
        flusher := if rest.isEmpty then .publish work none else .sync work rest none
        history := { w.history with
          syncs := { file := snapshot.file, started := started } :: w.history.syncs } }
  | .publish work error, .publishFlush =>
    some { w with state := w.state.publishFlush work error, flusher := .idle }
  | _, _ => none

/-- An append of the stream is being executed. -/
def appending (w : World) (stream : Text) : Bool :=
  match w.writer with
  | .append batch _ => batch.stream = stream
  | _ => false

def step (w : World) : Action → Option World
  | .ticket stream => some { w with state := (w.state.entry stream).1 }
  | .requestFlush stream target => some { w with state := w.state.requestFlush stream target }
  -- a stream is seeded before anything is appended to it
  | .seed stream seq => if w.appending stream then none
      else some { w with state := w.state.seed stream seq }
  | .flushAll => some { w with state := w.state.flushAll }
  | .takeFlushWork stream => w.stepFlusher w.flusher (.takeFlushWork stream)
  | .startSync snapshot => w.stepFlusher w.flusher (.startSync snapshot)
  | .endSync error => w.stepFlusher w.flusher (.endSync error)
  | .publishFlush => w.stepFlusher w.flusher .publishFlush
  | action => w.stepWriter w.writer action

end World

def machine : Lib.Machine World Action where
  init := {}
  step := World.step

end Sunpack.Journal
