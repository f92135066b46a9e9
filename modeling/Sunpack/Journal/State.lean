import Sunpack.PathKeys

/-!
# The journal's shared state

`watch_journal.rs`: the streams of the journal, their segments, and what happens to them while the
state lock is held. Every function here is one such critical section, or a part of one.

The `retired` cell of a stream is its identity: a stream that is opened again under the same key has
another cell. Sequences are natural numbers; the source's are 64 bits wide, and its epochs count
records, so they do not saturate before the sequences run out. Left out: the counters that only feed
statistics, and the sizes reported to the tickets.
-/

namespace Sunpack.Journal

inductive TicketGoal
  | written
  | durable
  | sealed
deriving DecidableEq, Repr

/-- What is left of a stream that has been retired. -/
structure StreamFrontier where
  written : Nat
  durable : Nat
  sealed : Nat
  error : Option String
deriving DecidableEq, Repr

structure SegmentState where
  path : Text
  /-- The open file. -/
  file : Nat
  lastSeq : Nat := 0
  writeEpoch : Nat := 0
  flushedEpoch : Nat := 0
  sealedEnd : Option Nat := none
deriving DecidableEq, Repr

/-- Segments by their start. -/
abbrev Segments := AList fun _ : Nat => SegmentState

structure StreamState where
  retired : Nat
  owners : Nat := 0
  closing : Bool := false
  writtenSeq : Nat := 0
  durableSeq : Nat := 0
  requestedSeq : Nat := 0
  sealedSeq : Nat := 0
  segments : Segments := ∅
  error : Option String := none
  writeCount : Nat := 0

structure RuntimeState where
  streams : Text → Option StreamState := fun _ => none
  /-- The contents of the `retired` cells. -/
  frontiers : Nat → Option StreamFrontier := fun _ => none
  nextRetired : Nat := 0

/-- One record of an append command. -/
structure AppendItem where
  seq : Nat
  durable : Bool
deriving DecidableEq, Repr

/-- Append commands for one stream and segment that are written together. -/
structure AppendBatch where
  stream : Text
  path : Text
  segmentStart : Nat
  items : List AppendItem
deriving DecidableEq, Repr

structure SealCommand where
  stream : Text
  oldPath : Text
  oldStart : Nat
  boundary : Nat
deriving DecidableEq, Repr

structure FlushSnapshot where
  start : Nat
  epoch : Nat
  file : Nat
deriving DecidableEq, Repr

structure FlushWork where
  stream : Text
  retired : Nat
  target : Nat
  segments : List FlushSnapshot
deriving DecidableEq, Repr

/-! ## Streams -/

namespace StreamState

def frontier (stream : StreamState) : StreamFrontier where
  written := stream.writtenSeq
  durable := stream.durableSeq
  sealed := stream.sealedSeq
  error := stream.error

def request (stream : StreamState) (target : Nat) : StreamState :=
  { stream with requestedSeq := max stream.requestedSeq target }

def clean (segment : SegmentState) : Bool := segment.writeEpoch ≤ segment.flushedEpoch

def closeSegment (stream : StreamState) (start boundary : Nat) : StreamState :=
  { stream with
    segments := stream.segments.erase start
    sealedSeq := max stream.sealedSeq boundary }

def closeReadySegments (stream : StreamState) : StreamState :=
  let ready := stream.segments.entries.filterMap fun entry =>
    entry.2.sealedEnd.bind fun boundary =>
      if boundary ≤ stream.durableSeq && clean entry.2 then some (entry.1, boundary) else none
  ready.foldl (fun stream closing => stream.closeSegment closing.1 closing.2) stream

/-- What the flusher has to sync for everything written so far. -/
def dirtySegments (stream : StreamState) : List FlushSnapshot :=
  (stream.segments.entries.filter fun entry =>
    entry.2.lastSeq ≠ 0 && entry.2.lastSeq ≤ stream.writtenSeq && !clean entry.2).map fun entry =>
      { start := entry.1, epoch := entry.2.writeEpoch, file := entry.2.file }

def markFlushed (stream : StreamState) (snapshot : FlushSnapshot) : StreamState :=
  match stream.segments.lookup snapshot.start with
  | some segment => { stream with
      segments := stream.segments.insert snapshot.start
        { segment with flushedEpoch := max segment.flushedEpoch snapshot.epoch } }
  | none => stream

/-- `requested > durable` and everything requested has been written. -/
def needsFlush (stream : StreamState) : Bool :=
  stream.error.isNone && stream.durableSeq < stream.requestedSeq &&
    stream.requestedSeq ≤ stream.writtenSeq

end StreamState

def StreamFrontier.at (frontier : StreamFrontier) : TicketGoal → Nat
  | .written => frontier.written
  | .durable => frontier.durable
  | .sealed => frontier.sealed

/-! ## Critical sections -/

namespace RuntimeState

def put (s : RuntimeState) (key : Text) (stream : StreamState) : RuntimeState :=
  { s with streams := Function.update s.streams key (some stream) }

/-- `entry(key).or_default()`. -/
def entry (s : RuntimeState) (key : Text) : RuntimeState × StreamState :=
  match s.streams key with
  | some stream => (s, stream)
  | none =>
    let stream : StreamState := { retired := s.nextRetired }
    ({ s with
        streams := Function.update s.streams key (some stream)
        nextRetired := s.nextRetired + 1 }, stream)

def modify (s : RuntimeState) (key : Text) (f : StreamState → StreamState) : RuntimeState :=
  let (s, stream) := s.entry key
  s.put key (f stream)

/-- The answer to a ticket whose stream is no longer there. -/
def closedAnswer (s : RuntimeState) (retired seq : Nat) (goal : TicketGoal) : Except String Unit :=
  match s.frontiers retired with
  | none => .error "Watch journal stream is unavailable"
  | some frontier =>
    match frontier.error with
    | some error => .error error
    | none =>
      if seq ≤ frontier.at goal then .ok ()
      else .error "Watch journal stream closed before the requested frontier"

/-- The answer of a waiting ticket, or `none` if it goes on waiting. -/
def waitFor (s : RuntimeState) (key : Text) (retired seq : Nat) (goal : TicketGoal) :
    Option (Except String Unit) :=
  match s.streams key with
  | some stream =>
    if stream.retired = retired then
      match stream.error with
      | some error => some (.error error)
      | none => if seq ≤ stream.frontier.at goal then some (.ok ()) else none
    else some (s.closedAnswer retired seq goal)
  | none => some (s.closedAnswer retired seq goal)

def retireClosedStream (s : RuntimeState) (key : Text) : RuntimeState :=
  match s.streams key with
  | some stream =>
    if stream.closing && stream.owners = 0 &&
        (stream.error.isSome || stream.writtenSeq ≤ stream.durableSeq) then
      { s with
        streams := Function.update s.streams key none
        frontiers := Function.update s.frontiers stream.retired (some stream.frontier) }
    else s
  | none => s

def streamFailed (s : RuntimeState) (key : Text) : Bool :=
  (s.streams key).any fun stream => stream.error.isSome

def failStream (s : RuntimeState) (key : Text) (error : String) : RuntimeState :=
  (s.modify key fun stream => { stream with error := stream.error <|> some error }).retireClosedStream
    key

def requestFlush (s : RuntimeState) (key : Text) (target : Nat) : RuntimeState :=
  s.modify key (·.request target)

/-- The error of a refused seed is dropped: it leaves the state alone. -/
def seed (s : RuntimeState) (key : Text) (seq : Nat) : RuntimeState :=
  s.modify key fun stream =>
    if stream.writeCount = 0 && stream.segments.entries.isEmpty then
      { stream with
        writtenSeq := max stream.writtenSeq seq
        durableSeq := max stream.durableSeq seq
        requestedSeq := max stream.requestedSeq (max stream.durableSeq seq) }
    else stream

/-- The targets that `flush_all` then waits for are the written frontiers of this state. -/
def flushAll (s : RuntimeState) : RuntimeState :=
  { s with streams := fun key => (s.streams key).map fun stream => stream.request stream.writtenSeq }

def openStream (s : RuntimeState) (key : Text) : RuntimeState :=
  s.modify key fun stream => { stream with owners := stream.owners + 1, closing := false }

def releaseStream (s : RuntimeState) (key : Text) : RuntimeState :=
  match s.streams key with
  | some stream =>
    let owners := stream.owners - 1
    (s.put key { stream.request stream.writtenSeq with
      owners := owners
      closing := if owners = 0 then true else stream.closing }).retireClosedStream key
  | none => s.retireClosedStream key

/-! ### Appending -/

/-- The message of a batch whose records do not continue the written ones. -/
def monotonicError (written : Nat) : List AppendItem → Option String
  | [] => none
  | item :: items =>
    if written + 1 = item.seq then monotonicError item.seq items
    else some s!"non-monotonic Watch journal sequence: written={written}, got={item.seq}"

def validateAppend (s : RuntimeState) (batch : AppendBatch) : Option String :=
  monotonicError (((s.streams batch.stream).map (·.writtenSeq)).getD 0) batch.items

/-- The first half of `segment_file`: the open file of the segment, if it has one. -/
def lookupSegment (s : RuntimeState) (batch : AppendBatch) : Except String (Option Nat) :=
  match (s.streams batch.stream).bind fun stream => stream.segments.lookup batch.segmentStart with
  | some segment =>
    if segment.path ≠ batch.path then
      .error "Watch journal segment start was reused for a different path"
    else .ok (some segment.file)
  | none => .ok none

/-- The second half of `segment_file`, with the file that was opened in between. -/
def insertSegment (s : RuntimeState) (batch : AppendBatch) (file : Nat) : RuntimeState × Nat :=
  let (s, stream) := s.entry batch.stream
  match stream.segments.lookup batch.segmentStart with
  | some existing => (s, existing.file)
  | none =>
    (s.put batch.stream { stream with
      segments := stream.segments.insert batch.segmentStart { path := batch.path, file := file } },
      file)

def publishAppend (s : RuntimeState) (batch : AppendBatch) : RuntimeState × Option String :=
  let (s, stream) := s.entry batch.stream
  let lastSeq := (batch.items.getLast?.map (·.seq)).getD 0
  match stream.segments.lookup batch.segmentStart with
  | none => (s, some "Watch journal segment disappeared")
  | some segment =>
    let stream := { stream with
      segments := stream.segments.insert batch.segmentStart { segment with
        lastSeq := lastSeq
        writeEpoch := segment.writeEpoch + batch.items.length }
      writtenSeq := lastSeq
      writeCount := stream.writeCount + batch.items.length }
    let target := ((batch.items.filter (·.durable)).map (·.seq)).max?
    (s.put batch.stream ((target.map stream.request).getD stream), none)

/-! ### Sealing -/

/-- The locked part of a seal command, and the error it goes on to fail the stream with. -/
def sealSegment (s : RuntimeState) (command : SealCommand) : RuntimeState × Option String :=
  let (s, stream) := s.entry command.stream
  match stream.segments.lookup command.oldStart with
  | some segment =>
    if segment.path ≠ command.oldPath then
      (s, some "native Watch journal seal path did not match active segment")
    else
      let ended := { segment with sealedEnd := some command.boundary }
      let stream := { stream with segments := stream.segments.insert command.oldStart ended }
      if command.boundary ≤ stream.durableSeq && StreamState.clean segment then
        (s.put command.stream (stream.closeSegment command.oldStart command.boundary), none)
      else (s.put command.stream (stream.request command.boundary), none)
  | none =>
    if command.boundary ≤ stream.durableSeq then
      (s.put command.stream
        { stream with sealedSeq := max stream.sealedSeq command.boundary }, none)
    else
      (s, some s!"cannot seal unknown non-durable Watch journal segment through {command.boundary}")

/-! ### Flushing -/

/-- The section of `next_flush_work` that ends the coalescing of a stream: with nothing to sync the
frontier moves at once, else there is work. -/
def takeFlushWork (s : RuntimeState) (key : Text) : Option (RuntimeState × Option FlushWork) :=
  match s.streams key with
  | none => none
  | some stream =>
    if !stream.needsFlush then none
    else
      let target := stream.writtenSeq
      match stream.dirtySegments with
      | [] =>
        let stream := { stream with durableSeq := max stream.durableSeq target }
        some ((s.put key stream.closeReadySegments).retireClosedStream key, none)
      | segments => some (s, some
          { stream := key, retired := stream.retired, target := target, segments := segments })

/-- The section after the syncs. -/
def publishFlush (s : RuntimeState) (work : FlushWork) (error : Option String) : RuntimeState :=
  match s.streams work.stream with
  | none => s
  | some stream =>
    -- a failed old stream may have been retired and opened again during the syncs
    if stream.retired ≠ work.retired then s
    else
      match error with
      | some error =>
        let error := s!"native Watch journal flush failed: {error}"
        (s.put work.stream { stream with error := stream.error <|> some error }).retireClosedStream
          work.stream
      | none =>
        let stream := work.segments.foldl StreamState.markFlushed stream
        let stream := { stream with durableSeq := max stream.durableSeq work.target }
        (s.put work.stream stream.closeReadySegments).retireClosedStream work.stream

end RuntimeState

end Sunpack.Journal
