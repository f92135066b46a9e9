import Sunpack.Usn.DirectoryChanges

/-!
# The reasons of a file

`read_change_reasons` of the broker's journal reader: what the journal says of one file after a position
and up to another one. Identities of 8 and of 16 bytes are compared as numbers.
-/

namespace Sunpack.Usn

open Lib

/-! ## Identities -/

def trimZeros (id : Bytes) : Bytes := id.rdropWhile (· = 0)

def fileIdsEqual (record expected : Bytes) (expectedLen : Nat) : Bool :=
  trimZeros record = trimZeros (expected.take expectedLen)

theorem trimZeros_cons (x : UInt8) (id : Bytes) :
    trimZeros (x :: id) = if x = 0 ∧ trimZeros id = [] then [] else x :: trimZeros id := by
  unfold trimZeros List.rdropWhile
  rw [List.reverse_cons, List.dropWhile_append]
  cases id.reverse.dropWhile (· = 0) with
  | nil => by_cases hx : x = 0 <;> simp [hx]
  | cons y rest => simp

theorem trimZeros_of_zero {id : Bytes} (h : ofLeBytes id = 0) : trimZeros id = [] := by
  induction id with
  | nil => rfl
  | cons x id ih =>
    rw [ofLeBytes] at h
    have hx : x = 0 := UInt8.toNat_inj.1 (by simp; omega)
    rw [trimZeros_cons, if_pos ⟨hx, ih (by omega)⟩]

theorem ofLeBytes_trimZeros (id : Bytes) : ofLeBytes (trimZeros id) = ofLeBytes id := by
  induction id with
  | nil => rfl
  | cons x id ih =>
    rw [trimZeros_cons]
    split_ifs with h
    · obtain ⟨hx, hnil⟩ := h
      rw [hnil] at ih
      simp [ofLeBytes, hx, ← ih]
    · rw [ofLeBytes, ih, ofLeBytes]

theorem trimZeros_eq_iff (a b : Bytes) : trimZeros a = trimZeros b ↔ ofLeBytes a = ofLeBytes b := by
  constructor
  · intro h
    rw [← ofLeBytes_trimZeros a, h, ofLeBytes_trimZeros]
  · intro h
    induction a generalizing b with
    | nil => exact (trimZeros_of_zero h.symm).symm
    | cons x a ih =>
      cases b with
      | nil => exact trimZeros_of_zero h
      | cons y b =>
        have hx := x.toNat_lt
        have hy := y.toNat_lt
        rw [ofLeBytes, ofLeBytes] at h
        have hxy : x = y := UInt8.toNat_inj.1 (by omega)
        rw [trimZeros_cons, trimZeros_cons, ih b (by omega), hxy]

/-! ## One record -/

def ChangeReasons.none : ChangeReasons := ⟨0, 0⟩

/-- The top bit of a reason is the close. -/
def ChangeReasons.observe (reasons : ChangeReasons) (reason : UInt32) : ChangeReasons where
  all := reasons.all ||| reason
  withoutClose :=
    if reason &&& 0x80000000 = 0 then reasons.withoutClose ||| reason else reasons.withoutClose

structure ReasonLayout where
  fileIdEnd : Nat
  usnOffset : Nat
  reasonOffset : Nat

def reasonLayoutOf : Nat → Option ReasonLayout
  | 2 => some ⟨16, 24, 40⟩
  | 3 => some ⟨24, 40, 56⟩
  | 4 => some ⟨24, 40, 48⟩
  | _ => none

/-- The identity of a record. -/
def recordId (record : Bytes) (layout : ReasonLayout) : Bytes :=
  (record.take layout.fileIdEnd).drop 8

def recordChangeReason (record expected : Bytes) (expectedLen : Nat) (previousUsn currentUsn : Int) :
    Except IoError (Option UInt32) :=
  if record.length < 8 then .error (invalid "truncated USN record")
  else
    match reasonLayoutOf (field record 4 2) with
    | none => .ok none
    | some layout =>
      if record.length < layout.reasonOffset + 4 then .error (invalid "truncated USN record")
      else if usnAt record layout.usnOffset ≤ previousUsn ∨ currentUsn < usnAt record layout.usnOffset ∨
          fileIdsEqual (recordId record layout) expected expectedLen = false then .ok none
      else .ok (some (u32At record layout.reasonOffset))

/-! ## The loops -/

structure Observed where
  found : Bool
  reasons : ChangeReasons

def Observed.take (o : Observed) : Option UInt32 → Observed
  | none => o
  | some reason => ⟨true, o.reasons.observe reason⟩

section

variable (read : Device) (expected : Bytes) (expectedLen : Nat) (previousUsn currentUsn : Int)

def takeReason (rest : Bytes) (o : Observed) :
    Except IoError (Option UInt32) → (Bytes × Observed) ⊕ Except IoError Observed
  | .error e => .inr (.error e)
  | .ok reason => .inl (rest, o.take reason)

/-- One record of a reply; less than the start of a record at its end is left out. -/
def reasonBody (t : Bytes × Observed) : Option ((Bytes × Observed) ⊕ Except IoError Observed) :=
  if t.1.length < 8 then some (.inr (.ok t.2))
  else
    let length := field t.1 0 4
    if length < 8 ∨ t.1.length < length then
      some (.inr (.error (invalid "invalid USN journal record")))
    else
      some (takeReason (t.1.drop length) t.2
        (recordChangeReason (t.1.take length) expected expectedLen previousUsn currentUsn))

def observeReply (reply : Bytes) (o : Observed) : Option (Except IoError Observed) :=
  loop (reasonBody expected expectedLen previousUsn currentUsn) (reply.length + 1) (reply, o)

structure ReasonState where
  nextUsn : Int
  reads : Nat
  observed : Observed

def nextReply (s : ReasonState) (returnedNext : Int) :
    Except IoError Observed → ReasonState ⊕ Except IoError Observed
  | .error e => .inr (.error e)
  | .ok observed =>
    if returnedNext ≤ s.nextUsn then .inr (.error (other "USN observation made no progress"))
    else if currentUsn < returnedNext then .inr (.ok observed)
    else .inl ⟨returnedNext, s.reads + 1, observed⟩

def reasonsBody (s : ReasonState) : Option (ReasonState ⊕ Except IoError Observed) :=
  if currentUsn < s.nextUsn then some (.inr (.ok s.observed))
  else
    match read s.reads s.nextUsn with
    | .error e => some (.inr (.error e))
    | .ok reply =>
      if reply.length < 8 then some (.inr (.error (invalid "truncated USN journal reply")))
      else do
        let result ← observeReply expected expectedLen previousUsn currentUsn (reply.drop 8) s.observed
        some (nextReply currentUsn s (usnAt reply 0) result)

def observeReasons : Option (Except IoError Observed) :=
  loop (reasonsBody read expected expectedLen previousUsn currentUsn)
    ((currentUsn + 1 - previousUsn).toNat + 1) ⟨previousUsn, 0, ⟨false, .none⟩⟩

/-! ### The loops come to an end -/

theorem reasonBody_total (t : Bytes × Observed) :
    Gives (Sum.elim (fun r => r.1.length < t.1.length) fun _ => True)
      (reasonBody expected expectedLen previousUsn currentUsn t) := by
  unfold reasonBody
  dsimp only
  split_ifs with hshort hlength
  · exact ⟨_, rfl, trivial⟩
  · exact ⟨_, rfl, trivial⟩
  · refine ⟨_, rfl, ?_⟩
    unfold takeReason
    split
    · trivial
    · show (t.1.drop (field t.1 0 4)).length < t.1.length
      rw [List.length_drop]
      omega

theorem observeReply_total (reply : Bytes) (o : Observed) :
    Gives (fun _ => True) (observeReply expected expectedLen previousUsn currentUsn reply o) := by
  apply Gives.loop (fun _ => True) (fun t : Bytes × Observed => t.1.length)
  · intro t _
    apply (reasonBody_total expected expectedLen previousUsn currentUsn t).mono
    intro r h
    cases r with
    | inl r => exact ⟨trivial, h⟩
    | inr r => trivial
  · trivial
  · exact Nat.lt_succ_self _

theorem reasonsBody_total (s : ReasonState) :
    Gives (Sum.elim (fun r => (currentUsn + 1 - r.nextUsn).toNat < (currentUsn + 1 - s.nextUsn).toNat)
        fun _ => True)
      (reasonsBody read expected expectedLen previousUsn currentUsn s) := by
  unfold reasonsBody
  split_ifs with hdone
  · exact ⟨_, rfl, trivial⟩
  · split
    · exact ⟨_, rfl, trivial⟩
    · rename_i reply hreply
      split_ifs with hshort
      · exact ⟨_, rfl, trivial⟩
      · obtain ⟨result, hresult, -⟩ := observeReply_total expected expectedLen previousUsn currentUsn
          (reply.drop 8) s.observed
        rw [hresult]
        refine ⟨_, rfl, ?_⟩
        unfold nextReply
        split
        · trivial
        · split_ifs with hstuck hlast
          · trivial
          · trivial
          · show (currentUsn + 1 - usnAt reply 0).toNat < (currentUsn + 1 - s.nextUsn).toNat
            omega

theorem observeReasons_total :
    (observeReasons read expected expectedLen previousUsn currentUsn).isSome := by
  obtain ⟨result, hresult, -⟩ : Gives (fun _ => True)
      (observeReasons read expected expectedLen previousUsn currentUsn) := by
    apply Gives.loop (fun _ => True) (fun s : ReasonState => (currentUsn + 1 - s.nextUsn).toNat)
    · intro s _
      apply (reasonsBody_total read expected expectedLen previousUsn currentUsn s).mono
      intro r h
      cases r with
      | inl r => exact ⟨trivial, h⟩
      | inr r => trivial
    · trivial
    · exact Nat.lt_succ_self _
  rw [hresult]
  rfl

end

/-! ## The call -/

def noReason : BrokerError :=
  ⟨.notFound, "USN journal did not contain the current file record", none⟩

def Observed.result (o : Observed) : Except BrokerError ChangeReasons :=
  if o.found then .ok o.reasons else .error noReason

def readChangeReasonsFromVolume (volume : Volume) (expected : FileId) (expectedLen : Nat)
    (previousUsn currentUsn : Int) : Except BrokerError ChangeReasons :=
  (((observeReasons volume.read expected.1 expectedLen previousUsn currentUsn).get
    (observeReasons_total _ _ _ _ _)).mapError IoError.toBroker).bind Observed.result

/-- `read_change_reasons`, where `openVolume` is what the cache of handles gives. -/
def readChangeReasons (openVolume : Name → Except BrokerError Volume) (volumeGuid : Name)
    (expected : FileId) (expectedLen : UInt8) (previousUsn currentUsn : Int64) :
    Except BrokerError (UInt64 × ChangeReasons) :=
  if previousUsn ≤ 0 ∨ currentUsn ≤ previousUsn ∨ ¬(expectedLen = 8 ∨ expectedLen = 16) then
    .error ⟨.invalidInput, "invalid USN reason query", none⟩
  else (validateVolumeGuid volumeGuid).bind fun _ =>
    (openVolume volumeGuid).bind fun volume =>
      volume.bounds.bind fun bounds =>
        (readChangeReasonsFromVolume volume expected expectedLen.toNat previousUsn.toInt
          currentUsn.toInt).map fun reasons => (bounds.1, reasons)

/-! ## What it gives -/

/-- A record at its position in the journal. -/
structure Entry where
  usn : Int
  record : Bytes

/-- Of a version that is not known only the length matters. -/
structure Entry.Valid (e : Entry) : Prop where
  own_length : field e.record 0 4 = e.record.length
  long : 8 ≤ e.record.length
  fields : ∀ layout, reasonLayoutOf (field e.record 4 2) = some layout →
    layout.reasonOffset + 4 ≤ e.record.length ∧ usnAt e.record layout.usnOffset = e.usn

/-- The reason of a record, if it is about the file with this number. -/
def reasonOf (id : Nat) (record : Bytes) : Option UInt32 :=
  (reasonLayoutOf (field record 4 2)).bind fun layout =>
    if ofLeBytes (recordId record layout) = id then some (u32At record layout.reasonOffset) else none

def Entry.reason (id : Nat) (previousUsn currentUsn : Int) (e : Entry) : Option UInt32 :=
  if previousUsn < e.usn ∧ e.usn ≤ currentUsn then reasonOf id e.record else none

def reasonsIn (entries : List Entry) (id : Nat) (previousUsn currentUsn : Int) : List UInt32 :=
  entries.filterMap (Entry.reason id previousUsn currentUsn)

/-- A reply has whole records from the cursor on, and returns a cursor that is after them and not
beyond the next record. -/
structure EntryReply (entries : List Entry) (cursor : Int) (reply : Bytes) where
  front : List Entry
  part : List Entry
  rest : List Entry
  next : Int
  split : entries = front ++ part ++ rest
  before : ∀ e ∈ front, e.usn < cursor
  from_cursor : ∀ e ∈ part, cursor ≤ e.usn
  after : ∀ e ∈ part, e.usn < next
  beyond : ∀ e ∈ rest, next ≤ e.usn
  progress : cursor < next
  header : usnAt reply 0 = next
  bytes : reply.drop 8 = (part.map Entry.record).flatten
  length_ge : 8 ≤ reply.length

def EntriesServed (entries : List Entry) (previousUsn currentUsn : Int) (read : Device) : Prop :=
  ∀ reads cursor, previousUsn ≤ cursor → cursor ≤ currentUsn →
    ∃ reply, read reads cursor = .ok reply ∧ Nonempty (EntryReply entries cursor reply)

def observedOf (reasons : List UInt32) : Observed :=
  ⟨!reasons.isEmpty, reasons.foldl ChangeReasons.observe .none⟩

theorem observedOf_append (reasons : List UInt32) (reason : Option UInt32) :
    observedOf (reasons ++ reason.toList) = (observedOf reasons).take reason := by
  cases reason with
  | none => simp [Observed.take]
  | some reason => simp [observedOf, Observed.take]

theorem and_or_eq_zero (a b mask : UInt32) :
    (a ||| b) &&& mask = 0 ↔ a &&& mask = 0 ∧ b &&& mask = 0 := by
  have hdistrib : (a ||| b) &&& mask = (a &&& mask) ||| (b &&& mask) := by
    apply UInt32.toBitVec_inj.1
    ext i hi
    simp [Bool.and_or_distrib_right]
  rw [hdistrib, UInt32.or_eq_zero_iff]

/-- A flag is among all reasons if a record has it, and among those without close if a record has it that
is no close. -/
theorem foldl_observe (mask : UInt32) (reasons : List UInt32) (r : ChangeReasons) :
    ((reasons.foldl ChangeReasons.observe r).all &&& mask = 0 ↔
      r.all &&& mask = 0 ∧ ∀ x ∈ reasons, x &&& mask = 0) ∧
    ((reasons.foldl ChangeReasons.observe r).withoutClose &&& mask = 0 ↔
      r.withoutClose &&& mask = 0 ∧
        ∀ x ∈ reasons, x &&& 0x80000000 = 0 → x &&& mask = 0) := by
  induction reasons generalizing r with
  | nil => simp
  | cons x reasons ih =>
    obtain ⟨hall, hclose⟩ := ih (r.observe x)
    simp only [List.foldl_cons, hall, hclose, List.forall_mem_cons]
    constructor
    · rw [show (r.observe x).all = r.all ||| x from rfl, and_or_eq_zero, and_assoc]
    · by_cases hx : x &&& 0x80000000 = 0
      · rw [show (r.observe x).withoutClose = r.withoutClose ||| x from if_pos hx, and_or_eq_zero]
        simp [hx, and_assoc]
      · rw [show (r.observe x).withoutClose = r.withoutClose from if_neg hx]
        simp [hx]

section

variable {entries : List Entry} {expected : Bytes} {expectedLen : Nat} {previousUsn currentUsn : Int}

theorem recordChangeReason_valid {e : Entry} (h : e.Valid) (expected : Bytes) (expectedLen : Nat)
    (previousUsn currentUsn : Int) :
    recordChangeReason e.record expected expectedLen previousUsn currentUsn =
      .ok (e.reason (ofLeBytes (expected.take expectedLen)) previousUsn currentUsn) := by
  have hlong := h.long
  unfold recordChangeReason Entry.reason reasonOf
  rw [if_neg (by omega)]
  cases hlayout : reasonLayoutOf (field e.record 4 2) with
  | none => simp
  | some layout =>
    obtain ⟨hfields, husn⟩ := h.fields layout hlayout
    have hequal : fileIdsEqual (recordId e.record layout) expected expectedLen = false ↔
        ofLeBytes (recordId e.record layout) ≠ ofLeBytes (expected.take expectedLen) := by
      rw [fileIdsEqual, decide_eq_false_iff_not, trimZeros_eq_iff]
    simp only [Option.bind_some, husn, hequal]
    rw [if_neg (by omega)]
    by_cases hrange : previousUsn < e.usn ∧ e.usn ≤ currentUsn
    · rw [if_pos hrange]
      split_ifs with hout hid
      · omega
      · rfl
      · rfl
      · omega
    · rw [if_neg hrange, if_pos (by omega)]

theorem reasonBody_cons {e : Entry} (h : e.Valid) (rest : Bytes) (o : Observed) :
    reasonBody expected expectedLen previousUsn currentUsn (e.record ++ rest, o) =
      some (.inl (rest,
        o.take (e.reason (ofLeBytes (expected.take expectedLen)) previousUsn currentUsn))) := by
  have hlong := h.long
  have hlength : field (e.record ++ rest) 0 4 = e.record.length := by
    rw [← h.own_length, field, field, List.drop_zero, List.drop_zero,
      List.take_append_of_le_length (by omega)]
  unfold reasonBody
  dsimp only
  rw [hlength, List.length_append, if_neg (by omega), if_neg (by omega), List.take_left' rfl,
    List.drop_left' rfl, recordChangeReason_valid h]
  rfl

theorem observeReply_part {part : List Entry} (h : ∀ e ∈ part, e.Valid) {n : Nat}
    (hn : (part.map Entry.record).flatten.length < n) (reasons : List UInt32) :
    loop (reasonBody expected expectedLen previousUsn currentUsn) n
        ((part.map Entry.record).flatten, observedOf reasons) =
      some (.ok (observedOf (reasons ++
        reasonsIn part (ofLeBytes (expected.take expectedLen)) previousUsn currentUsn))) := by
  induction part generalizing n reasons with
  | nil =>
    obtain ⟨n, rfl⟩ := Nat.exists_eq_succ_of_ne_zero (Nat.ne_of_gt (Nat.zero_lt_of_lt hn))
    rw [reasonsIn, List.filterMap_nil, List.append_nil]
    exact loop_done rfl n
  | cons e part ih =>
    have hlong := (h e (by simp)).long
    obtain ⟨n, rfl⟩ := Nat.exists_eq_succ_of_ne_zero (Nat.ne_of_gt (Nat.zero_lt_of_lt hn))
    rw [List.map_cons, List.flatten_cons, List.length_append] at hn
    rw [List.map_cons, List.flatten_cons, loop_next (reasonBody_cons (h e (by simp)) _ _),
      ← observedOf_append, ih (fun e he => h e (by simp [he])) (by omega), List.append_assoc]
    cases hreason : e.reason (ofLeBytes (expected.take expectedLen)) previousUsn currentUsn with
    | none => simp [reasonsIn, hreason]
    | some reason => simp [reasonsIn, hreason]

/-- The entries before a position. -/
def entriesBefore (entries : List Entry) (position : Int) : List Entry :=
  entries.filter fun e => e.usn < position

namespace EntryReply

variable {cursor : Int} {bytes : Bytes} (reply : EntryReply entries cursor bytes)

theorem front_eq : entriesBefore entries cursor = reply.front := by
  have hfront : reply.front.filter (fun e => e.usn < cursor) = reply.front :=
    List.filter_eq_self.2 fun e he => by simpa using reply.before e he
  have hpart : reply.part.filter (fun e => e.usn < cursor) = [] :=
    List.filter_eq_nil_iff.2 fun e he => by simpa using reply.from_cursor e he
  have hrest : reply.rest.filter (fun e => e.usn < cursor) = [] :=
    List.filter_eq_nil_iff.2 fun e he => by
      have hbeyond := reply.beyond e he
      have hprogress := reply.progress
      simp
      omega
  have hsplit := congrArg (List.filter fun e => e.usn < cursor) reply.split
  rwa [List.filter_append, List.filter_append, hfront, hpart, hrest, List.append_nil,
    List.append_nil] at hsplit

theorem next_eq : entriesBefore entries reply.next = reply.front ++ reply.part := by
  have hboth : (reply.front ++ reply.part).filter (fun e => e.usn < reply.next) =
      reply.front ++ reply.part :=
    List.filter_eq_self.2 fun e he => by
      have hprogress := reply.progress
      rcases List.mem_append.1 he with he | he
      · have hbefore := reply.before e he
        simp
        omega
      · simpa using reply.after e he
  have hrest : reply.rest.filter (fun e => e.usn < reply.next) = [] :=
    List.filter_eq_nil_iff.2 fun e he => by simpa using reply.beyond e he
  have hsplit := congrArg (List.filter fun e => e.usn < reply.next) reply.split
  rwa [List.filter_append, hboth, hrest, List.append_nil] at hsplit

end EntryReply

/-- Behind the last position nothing is in the range. -/
theorem reasonsIn_before {position : Int} (h : currentUsn < position) (id : Nat) :
    reasonsIn (entriesBefore entries position) id previousUsn currentUsn =
      reasonsIn entries id previousUsn currentUsn := by
  unfold reasonsIn entriesBefore
  induction entries with
  | nil => rfl
  | cons e entries ih =>
    by_cases he : e.usn < position
    · rw [List.filter_cons_of_pos (by simpa using he), List.filterMap_cons, List.filterMap_cons, ih]
    · have hout : e.reason id previousUsn currentUsn = none := if_neg (by omega)
      rw [List.filter_cons_of_neg (by simpa using he), List.filterMap_cons, hout, ih]

/-- Everything before the cursor is observed. -/
structure Heard (entries : List Entry) (id : Nat) (previousUsn currentUsn : Int) (s : ReasonState) :
    Prop where
  start : previousUsn ≤ s.nextUsn
  observed : s.observed =
    observedOf (reasonsIn (entriesBefore entries s.nextUsn) id previousUsn currentUsn)

theorem reasonsBody_good (hvalid : ∀ e ∈ entries, e.Valid) {read : Device}
    (hserved : EntriesServed entries previousUsn currentUsn read) {s : ReasonState}
    (h : Heard entries (ofLeBytes (expected.take expectedLen)) previousUsn currentUsn s) :
    Gives (Sum.elim (fun r =>
        Heard entries (ofLeBytes (expected.take expectedLen)) previousUsn currentUsn r ∧
          (currentUsn + 1 - r.nextUsn).toNat < (currentUsn + 1 - s.nextUsn).toNat)
        fun result => result = .ok (observedOf (reasonsIn entries
          (ofLeBytes (expected.take expectedLen)) previousUsn currentUsn)))
      (reasonsBody read expected expectedLen previousUsn currentUsn s) := by
  have hstart := h.start
  unfold reasonsBody
  split_ifs with hdone
  · refine ⟨_, rfl, ?_⟩
    rw [h.observed, reasonsIn_before hdone]
    rfl
  · obtain ⟨bytes, hread, ⟨reply⟩⟩ := hserved s.reads s.nextUsn hstart (by omega)
    have hlength := reply.length_ge
    have hprogress := reply.progress
    have hpart : ∀ e ∈ reply.part, e.Valid := fun e he => hvalid e (by rw [reply.split]; simp [he])
    rw [hread]
    dsimp only
    rw [if_neg (by omega), observeReply, reply.bytes, h.observed,
      observeReply_part hpart (Nat.lt_succ_self _), reply.front_eq, reply.header]
    have hall : reasonsIn reply.front (ofLeBytes (expected.take expectedLen)) previousUsn currentUsn ++
        reasonsIn reply.part (ofLeBytes (expected.take expectedLen)) previousUsn currentUsn =
          reasonsIn (entriesBefore entries reply.next) (ofLeBytes (expected.take expectedLen))
            previousUsn currentUsn := by
      rw [reply.next_eq, reasonsIn, reasonsIn, reasonsIn, List.filterMap_append]
    rw [hall]
    refine ⟨_, rfl, ?_⟩
    unfold nextReply
    dsimp only
    rw [if_neg (by omega)]
    split_ifs with hlast
    · rw [reasonsIn_before hlast]
      rfl
    · refine ⟨⟨?_, rfl⟩, ?_⟩
      · show previousUsn ≤ reply.next
        omega
      · show (currentUsn + 1 - reply.next).toNat < (currentUsn + 1 - s.nextUsn).toNat
        omega

theorem observeReasons_good (hvalid : ∀ e ∈ entries, e.Valid) {read : Device}
    (hserved : EntriesServed entries previousUsn currentUsn read) :
    observeReasons read expected expectedLen previousUsn currentUsn =
      some (.ok (observedOf (reasonsIn entries (ofLeBytes (expected.take expectedLen)) previousUsn
        currentUsn))) := by
  obtain ⟨result, hresult, heq⟩ : Gives (fun result => result = .ok (observedOf (reasonsIn entries
      (ofLeBytes (expected.take expectedLen)) previousUsn currentUsn)))
      (observeReasons read expected expectedLen previousUsn currentUsn) := by
    apply Gives.loop (Heard entries (ofLeBytes (expected.take expectedLen)) previousUsn currentUsn)
      (fun s : ReasonState => (currentUsn + 1 - s.nextUsn).toNat)
    · intro s hs
      exact reasonsBody_good hvalid hserved hs
    · refine ⟨le_refl _, ?_⟩
      have hnone : reasonsIn (entriesBefore entries previousUsn)
          (ofLeBytes (expected.take expectedLen)) previousUsn currentUsn = [] := by
        apply List.filterMap_eq_nil_iff.2
        intro e he
        have hlt : e.usn < previousUsn := by simpa using (List.mem_filter.1 he).2
        exact if_neg (by omega)
      show _ = observedOf (reasonsIn (entriesBefore entries previousUsn) _ _ _)
      rw [hnone]
      rfl
    · exact Nat.lt_succ_self _
  rw [hresult, heq]

end

/-- However the journal splits its records into replies: without a record of the file in the range the call
fails, and else it gives the flags of exactly these records. -/
theorem reasons_complete {openVolume : Name → Except BrokerError Volume} {volumeGuid : Name}
    {volume : Volume} {journalId : UInt64} {bounds : Int64 × Int64} {entries : List Entry}
    {previousUsn currentUsn : Int64} {expectedLen : UInt8}
    (hguid : volumeGuidIsValid (toUtf8 volumeGuid)) (hopen : openVolume volumeGuid = .ok volume)
    (hbounds : volume.bounds = .ok (journalId, bounds)) (expected : FileId)
    (hlen : expectedLen = 8 ∨ expectedLen = 16) (hstart : 0 < previousUsn)
    (hrange : previousUsn < currentUsn) (hvalid : ∀ e ∈ entries, e.Valid)
    (hserved : EntriesServed entries previousUsn.toInt currentUsn.toInt volume.read) :
    let reasons := reasonsIn entries (ofLeBytes (expected.1.take expectedLen.toNat))
      previousUsn.toInt currentUsn.toInt
    let result := readChangeReasons openVolume volumeGuid expected expectedLen previousUsn currentUsn
    (reasons = [] → result = .error noReason) ∧
      (reasons ≠ [] → ∃ found, result = .ok (journalId, found) ∧
        ∀ mask, (found.all &&& mask = 0 ↔ ∀ r ∈ reasons, r &&& mask = 0) ∧
          (found.withoutClose &&& mask = 0 ↔
            ∀ r ∈ reasons, r &&& 0x80000000 = 0 → r &&& mask = 0)) := by
  intro reasons result
  have hquery : ¬(previousUsn ≤ 0 ∨ currentUsn ≤ previousUsn ∨
      ¬(expectedLen = 8 ∨ expectedLen = 16)) := by
    rw [Int64.lt_iff_toInt_lt] at hstart hrange
    rw [Int64.le_iff_toInt_le, Int64.le_iff_toInt_le]
    intro hbad
    rcases hbad with hle | hle | hno
    · omega
    · omega
    · exact hno hlen
  have hvolume : readChangeReasonsFromVolume volume expected expectedLen.toNat previousUsn.toInt
      currentUsn.toInt = (observedOf reasons).result := by
    unfold readChangeReasonsFromVolume
    simp only [observeReasons_good hvalid hserved, Option.get_some]
    rfl
  have hresult : result = (observedOf reasons).result.map fun found => (journalId, found) := by
    show readChangeReasons _ _ _ _ _ _ = _
    unfold readChangeReasons validateVolumeGuid
    rw [if_neg hquery, if_pos hguid]
    simp only [Except.bind, hopen, hbounds, hvolume]
  constructor
  · intro hnil
    rw [hresult, hnil]
    rfl
  · intro hne
    refine ⟨reasons.foldl ChangeReasons.observe .none, ?_, fun mask => ?_⟩
    · rw [hresult]
      cases hlist : reasons with
      | nil => exact absurd hlist hne
      | cons => rfl
    · simpa [ChangeReasons.none] using foldl_observe mask reasons .none

/-! ### One record -/

def reasonRecord : Bytes :=
  leBytes 4 60 ++ leBytes 2 2 ++ leBytes 2 0 ++ leBytes 8 9 ++ leBytes 8 5 ++ leBytes 8 7 ++
    leBytes 8 0 ++ leBytes 4 0x100 ++ leBytes 16 0

def reasonVolume : Volume :=
  ⟨.ok (3, 1, 8), fun _ _ => .ok (leBytes 8 8 ++ reasonRecord)⟩

def watchedVolume : Name := "\\\\?\\Volume\x7b01234567-89ab-cdef-0123-456789abcdef\x7d".toList

def nine : FileId := ⟨leBytes 16 9, by decide⟩

theorem reasonRecord_valid : ∀ e ∈ [(⟨7, reasonRecord⟩ : Entry)], e.Valid := by
  intro e he
  obtain rfl := List.mem_singleton.1 he
  refine ⟨by decide, by decide, ?_⟩
  intro layout hlayout
  have htwo : reasonLayoutOf 2 = some layout := hlayout
  obtain rfl := Option.some.inj htwo
  exact ⟨by decide, by decide⟩

theorem reasonVolume_serves :
    EntriesServed [⟨7, reasonRecord⟩] (5 : Int64).toInt (7 : Int64).toInt reasonVolume.read := by
  intro reads cursor hstart hend
  have hseven : cursor ≤ 7 := hend
  refine ⟨_, rfl, ⟨⟨[], [⟨7, reasonRecord⟩], [], 8, rfl, ?_, ?_, ?_, ?_, ?_, ?_, ?_, ?_⟩⟩⟩
  · simp
  · simpa using hend
  · simp
  · simp
  · omega
  · decide
  · decide
  · decide

theorem reasons_complete_one :
    let reasons := reasonsIn [⟨7, reasonRecord⟩] (ofLeBytes (nine.1.take (8 : UInt8).toNat))
      (5 : Int64).toInt (7 : Int64).toInt
    let result := readChangeReasons (fun _ => .ok reasonVolume) watchedVolume nine 8 5 7
    (reasons = [] → result = .error noReason) ∧
      (reasons ≠ [] → ∃ found, result = .ok (3, found) ∧
        ∀ mask, (found.all &&& mask = 0 ↔ ∀ r ∈ reasons, r &&& mask = 0) ∧
          (found.withoutClose &&& mask = 0 ↔
            ∀ r ∈ reasons, r &&& 0x80000000 = 0 → r &&& mask = 0)) :=
  reasons_complete (by decide) rfl rfl nine (.inl rfl) (by decide) (by decide) reasonRecord_valid
    reasonVolume_serves

end Sunpack.Usn
