import Sunpack.Lib.LittleEndian
import Sunpack.Lib.CutLog

/-!
# WAL files: headers, fragments, transactions

The writing side of `wal.rs` and `open_segment` of the watch journal. A file is 16 header bytes and
then transactions; a transaction is a sequence of fragments of at most 1 MiB that share a sequence
number, all but the last flagged `MORE`. Files and buffers are byte lists, and `crc` is the CRC-32
routine, about which nothing is assumed.
-/

namespace Sunpack.Wal

open Lib

inductive ErrorKind
  | invalidData
  | unexpectedEof
deriving DecidableEq, Repr

structure IoError where
  kind : ErrorKind
  message : String
deriving DecidableEq, Repr

def invalid (error : String) : IoError := ⟨.invalidData, error⟩

def FILE_HEADER_BYTES : Nat := 16
def FRAME_HEADER_BYTES : Nat := 16
def MAX_FRAME_BYTES : Nat := 64 * 1024 * 1024
def WRITE_FRAME_BYTES : Nat := 1024 * 1024

/-- The flag of a fragment that is not the last one of its transaction. -/
def MORE : UInt32 := (1 : UInt32) <<< 31

inductive Kind
  | taskWal
  | catalogWal
  | taskSnapshot
  | catalogSnapshot
deriving DecidableEq, Repr

def Kind.toNat : Kind → Nat
  | .taskWal => 1
  | .catalogWal => 2
  | .taskSnapshot => 3
  | .catalogSnapshot => 4

/-- `SPWL`, version 1, the kind, and eight zero bytes. -/
def fileHeader (kind : Kind) : List UInt8 :=
  [83, 80, 87, 76] ++ leBytes 2 1 ++ leBytes 2 kind.toNat ++ List.replicate 8 0

@[simp] theorem fileHeader_length (kind : Kind) : (fileHeader kind).length = 16 := by
  simp [fileHeader]

variable (crc : List UInt8 → UInt32)

/-! ## Fragments -/

/-- The writer of one transaction. Its buffer never exceeds a fragment. -/
structure Fragments where
  output : List UInt8
  seq : UInt64
  buffer : List UInt8 := []
  room : buffer.length ≤ WRITE_FRAME_BYTES := by decide

/-- The length word and the sequence number of a frame header: the part the CRC covers. -/
def frameStart (seq : UInt64) (body : List UInt8) (more : Bool) : List UInt8 :=
  leBytes 4 (body.length.toUInt32 ||| if more then MORE else 0).toNat ++ leBytes 8 seq.toNat

/-- A fragment as it stands in the file. -/
def frame (seq : UInt64) (body : List UInt8) (more : Bool) : List UInt8 :=
  frameStart seq body more ++ leBytes 4 (crc (frameStart seq body more ++ body)).toNat ++ body

def Fragments.emit (w : Fragments) (more : Bool) : Except IoError Fragments :=
  if w.buffer = [] then .error (invalid "empty WAL transaction")
  else .ok { output := w.output ++ frame crc w.seq w.buffer more, seq := w.seq }

/-- Make room for the next byte. -/
def Fragments.emitFull (w : Fragments) : Except IoError Fragments :=
  if w.buffer.length = WRITE_FRAME_BYTES then w.emit crc true else .ok w

theorem Fragments.emitFull_room {w w' : Fragments} (h : w.emitFull crc = .ok w') :
    w'.buffer.length < WRITE_FRAME_BYTES := by
  unfold emitFull emit at h
  split_ifs at h with hfull hempty
  · obtain rfl := Except.ok.inj h
    show 0 < WRITE_FRAME_BYTES
    decide
  · obtain rfl := Except.ok.inj h
    exact Nat.lt_of_le_of_ne w.room hfull

/-- Move as many bytes into the buffer as fit. -/
def Fragments.extend (w : Fragments) (bytes : List UInt8) : Fragments where
  output := w.output
  seq := w.seq
  buffer := w.buffer ++ bytes.take (WRITE_FRAME_BYTES - w.buffer.length)
  room := by
    have := w.room
    simp only [List.length_append, List.length_take]
    omega

/-- One `write` call. A full buffer is emitted only when more bytes arrive. -/
def Fragments.write (w : Fragments) (bytes : List UInt8) : Except IoError Fragments :=
  if _hbytes : bytes = [] then .ok w
  else
    match _hroom : w.emitFull crc with
    | .error e => .error e
    | .ok w' =>
      (w'.extend bytes).write (bytes.drop (WRITE_FRAME_BYTES - w'.buffer.length))
termination_by bytes.length
decreasing_by
  have := List.length_pos_iff.2 _hbytes
  have := Fragments.emitFull_room crc _hroom
  simp only [List.length_drop]
  omega

/-- `writes` are the calls the encoder makes on the writer. -/
def appendFrame (output : List UInt8) (seq : UInt64) (writes : List (List UInt8)) :
    Except IoError (List UInt8) := do
  let w ← writes.foldlM (Fragments.write crc) { output := output, seq := seq }
  let w ← w.emit crc false
  return w.output

/-! ## What `appendFrame` appends -/

/-- The fragment bodies of a payload: full ones, and a last one that is not empty. -/
def bodies (payload : List UInt8) : List (List UInt8) :=
  if payload.length ≤ WRITE_FRAME_BYTES then [payload]
  else payload.take WRITE_FRAME_BYTES :: bodies (payload.drop WRITE_FRAME_BYTES)
termination_by payload.length
decreasing_by
  simp only [List.length_drop, WRITE_FRAME_BYTES] at *
  omega

/-- The frames of a transaction with the given bodies. -/
def frames (seq : UInt64) : List (List UInt8) → List UInt8
  | [] => []
  | [body] => frame crc seq body false
  | body :: rest => frame crc seq body true ++ frames seq rest

theorem frames_append_singleton (seq : UInt64) (full : List (List UInt8)) (last : List UInt8) :
    frames crc seq (full ++ [last]) =
      (full.flatMap fun b => frame crc seq b true) ++ frame crc seq last false := by
  induction full with
  | nil => rfl
  | cons b full ih =>
    cases full with
    | nil => simp [frames]
    | cons c full =>
      have hne : c :: (full ++ [last]) = [] → False := List.cons_ne_nil _ _
      rw [List.cons_append, List.cons_append, frames, ← List.cons_append, ih]
      · simp
      · exact hne

theorem bodies_append {full : List (List UInt8)} (hfull : ∀ b ∈ full, b.length = WRITE_FRAME_BYTES)
    {last : List UInt8} (hne : last ≠ []) (hlen : last.length ≤ WRITE_FRAME_BYTES) :
    bodies (full.flatten ++ last) = full ++ [last] := by
  induction full with
  | nil => rw [bodies, if_pos (by simpa using hlen)]; simp
  | cons b full ih =>
    have hb := hfull b (by simp)
    have hpos := List.length_pos_iff.2 hne
    rw [bodies, if_neg (by simp only [List.flatten_cons, List.length_append]; omega),
      List.flatten_cons, List.append_assoc, List.take_left' hb, List.drop_left' hb,
      ih fun c hc => hfull c (by simp [hc])]
    rfl

/-- The writer after it was given `payload`, on top of the output `out`. -/
structure Fragments.Holds (w : Fragments) (out : List UInt8) (seq : UInt64)
    (payload : List UInt8) (full : List (List UInt8)) : Prop where
  seqIs : w.seq = seq
  outputIs : w.output = out ++ full.flatMap fun b => frame crc seq b true
  payloadIs : payload = full.flatten ++ w.buffer
  fullIs : ∀ b ∈ full, b.length = WRITE_FRAME_BYTES
  pending : payload ≠ [] → w.buffer ≠ []

theorem Fragments.emitFull_holds {w : Fragments} {out payload : List UInt8} {seq : UInt64}
    {full : List (List UInt8)} (h : w.Holds crc out seq payload full) :
    ∃ (w' : Fragments) (full' : List (List UInt8)), w.emitFull crc = .ok w' ∧ w'.seq = seq ∧
      w'.output = out ++ (full'.flatMap fun b => frame crc seq b true) ∧
      payload = full'.flatten ++ w'.buffer ∧ ∀ b ∈ full', b.length = WRITE_FRAME_BYTES := by
  unfold emitFull emit
  split_ifs with hfull hempty
  · rw [hempty] at hfull
    exact absurd hfull (by decide)
  · refine ⟨_, full ++ [w.buffer], rfl, h.seqIs, ?_, ?_, ?_⟩
    · simp [h.outputIs, h.seqIs]
    · simp [h.payloadIs]
    · intro b hb
      rcases List.mem_append.1 hb with hb | hb
      · exact h.fullIs b hb
      · rw [List.mem_singleton.1 hb, hfull]
  · exact ⟨w, full, rfl, h.seqIs, h.outputIs, h.payloadIs, h.fullIs⟩

theorem Fragments.write_holds (w : Fragments) (bytes : List UInt8) {out payload : List UInt8}
    {seq : UInt64} {full : List (List UInt8)} (h : w.Holds crc out seq payload full) :
    ∃ w' full', w.write crc bytes = .ok w' ∧ w'.Holds crc out seq (payload ++ bytes) full' := by
  rw [write]
  split_ifs with hbytes
  · exact ⟨w, full, rfl, by simpa [hbytes] using h⟩
  obtain ⟨w₁, full₁, hemit, hseq, hout, hpay, hfull₁⟩ := emitFull_holds crc h
  have hroom := emitFull_room crc hemit
  have hpos := List.length_pos_iff.2 hbytes
  split
  · rename_i e he
    rw [hemit] at he
    exact absurd he (by simp)
  rename_i w₂ hw₂
  obtain rfl : w₁ = w₂ := Except.ok.inj (hemit.symm.trans hw₂)
  have hext : (w₁.extend bytes).Holds crc out seq
      (payload ++ bytes.take (WRITE_FRAME_BYTES - w₁.buffer.length)) full₁ := by
    refine ⟨hseq, hout, by simp [extend, hpay], hfull₁, fun _ => ?_⟩
    rw [extend, ← List.length_pos_iff, List.length_append, List.length_take]
    omega
  obtain ⟨w', full', hw', hholds⟩ := write_holds (w₁.extend bytes)
    (bytes.drop (WRITE_FRAME_BYTES - w₁.buffer.length)) hext
  refine ⟨w', full', hw', ?_⟩
  rwa [List.append_assoc, List.take_append_drop] at hholds
termination_by bytes.length
decreasing_by
  simp only [List.length_drop]
  omega

theorem writes_hold (writes : List (List UInt8)) (w : Fragments) {out payload : List UInt8}
    {seq : UInt64} {full : List (List UInt8)} (h : w.Holds crc out seq payload full) :
    ∃ w' full', writes.foldlM (Fragments.write crc) w = .ok w' ∧
      w'.Holds crc out seq (payload ++ writes.flatten) full' := by
  induction writes generalizing w payload full with
  | nil => exact ⟨w, full, rfl, by simpa using h⟩
  | cons bytes writes ih =>
    obtain ⟨w₁, full₁, hw₁, h₁⟩ := w.write_holds crc bytes h
    obtain ⟨w₂, full₂, hw₂, h₂⟩ := ih w₁ h₁
    refine ⟨w₂, full₂, ?_, by simpa using h₂⟩
    rw [List.foldlM_cons, hw₁]
    exact hw₂

/-! ## Transactions -/

/-- What one `append_frame` call is asked to write; the payload is not empty. -/
structure Transaction where
  seq : UInt64
  writes : List (List UInt8)
  nonempty : writes.flatten ≠ []

def Transaction.payload (t : Transaction) : List UInt8 := t.writes.flatten

/-- The bytes of a transaction; they do not depend on how the payload was split into writes. -/
def Transaction.bytes (t : Transaction) : List UInt8 := frames crc t.seq (bodies t.payload)

theorem appendFrame_eq (out : List UInt8) (t : Transaction) :
    appendFrame crc out t.seq t.writes = .ok (out ++ t.bytes crc) := by
  have hinit : Fragments.Holds crc { output := out, seq := t.seq } out t.seq [] [] :=
    ⟨rfl, by simp, rfl, by simp, by simp⟩
  obtain ⟨w, full, hw, h⟩ := writes_hold crc t.writes _ hinit
  have hpending : w.buffer ≠ [] := h.pending (by simpa using t.nonempty)
  have hbodies : bodies t.payload = full ++ [w.buffer] := by
    rw [← bodies_append h.fullIs hpending w.room, ← h.payloadIs]
    rfl
  rw [appendFrame, hw]
  simp only [bind, Except.bind, Fragments.emit, if_neg hpending]
  rw [Transaction.bytes, hbodies, frames_append_singleton, h.outputIs, h.seqIs, List.append_assoc]
  rfl

/-- Every fragment body is short and not empty. -/
theorem mem_bodies {payload b : List UInt8} (hne : payload ≠ []) (hb : b ∈ bodies payload) :
    0 < b.length ∧ b.length ≤ WRITE_FRAME_BYTES := by
  rw [bodies] at hb
  split_ifs at hb with hlen
  · rw [List.mem_singleton.1 hb]
    exact ⟨List.length_pos_iff.2 hne, hlen⟩
  rcases List.mem_cons.1 hb with rfl | hb
  · rw [List.length_take]
    simp only [WRITE_FRAME_BYTES] at hlen ⊢
    omega
  · have hne' : payload.drop WRITE_FRAME_BYTES ≠ [] := by
      rw [← List.length_pos_iff, List.length_drop]
      omega
    exact mem_bodies hne' hb
termination_by payload.length
decreasing_by
  simp only [List.length_drop, WRITE_FRAME_BYTES] at *
  omega

theorem bodies_flatten (payload : List UInt8) : (bodies payload).flatten = payload := by
  rw [bodies]
  split_ifs with hlen
  · simp
  · rw [List.flatten_cons, bodies_flatten, List.take_append_drop]
termination_by payload.length
decreasing_by
  simp only [List.length_drop, WRITE_FRAME_BYTES] at *
  omega

theorem bodies_ne_nil (payload : List UInt8) : bodies payload ≠ [] := by
  rw [bodies]
  split_ifs <;> simp

/-! ## Files -/

/-- `open_segment` on a file with the given bytes: the bytes once it is open for appending. -/
def openSegment (file : List UInt8) (kind : Kind) : Except IoError (List UInt8) :=
  if file.length = 0 then .ok (file ++ fileHeader kind)
  else if file.length < 16 then .error ⟨.unexpectedEof, "failed to fill whole buffer"⟩
  else if file.take 16 = fileHeader kind then .ok file
  else .error (invalid "unsupported binary WAL header")

/-- Append transactions to an open file. -/
def appendAll (file : List UInt8) (ts : List Transaction) : Except IoError (List UInt8) :=
  ts.foldlM (fun file t => appendFrame crc file t.seq t.writes) file

/-- A file with the given transactions. -/
def logBytes (kind : Kind) (ts : List Transaction) : List UInt8 :=
  fileHeader kind ++ CutLog.bytes (Transaction.bytes crc) ts

theorem appendAll_eq (file : List UInt8) (ts : List Transaction) :
    appendAll crc file ts = .ok (file ++ CutLog.bytes (Transaction.bytes crc) ts) := by
  induction ts generalizing file with
  | nil => simp [appendAll, pure, Except.pure]
  | cons t ts ih =>
    rw [appendAll, List.foldlM_cons, appendFrame_eq]
    exact (ih _).trans (by simp)

end Sunpack.Wal
