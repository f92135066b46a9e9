import Sunpack.ArchiveState.Zip64
import Sunpack.Lib.BigEndian

/-!
# The search for the ZIP64 end record on a flat input

The windows of `locate_end_record` find what a search of every place finds. The reads are those of an
input: all that is known of them is what they return inside it.

At the end `central_entry_values`, on the extra fields of a central entry.
-/

namespace Sunpack.ArchiveState.Zip64

open Lib

/-! ## The flat search -/

/-- A record, all of it in front of the locator, whose extent ends there. -/
def IsRecord (input : List UInt8) (locatorOffset place : Nat) : Prop :=
  place + 56 ≤ locatorOffset ∧ slice input place 4 = recordSignature ∧
    place + 12 + numberAt (slice input place 56) 4 8 = locatorOffset

instance (input : List UInt8) (locatorOffset place : Nat) :
    Decidable (IsRecord input locatorOffset place) :=
  inferInstanceAs (Decidable (_ ∧ _ ∧ _))

/-- Places in front of the locator, backwards. -/
def downFrom (base stop : Nat) : List Nat := (List.range' base (stop - base)).reverse

def places (base declared locatorOffset : Nat) : List Nat :=
  declared :: (if 56 ≤ locatorOffset then [locatorOffset - 56] else []) ++
    downFrom base locatorOffset

/-- What a place decides. -/
def decided (input : List UInt8) (locator : Locator) (place : Nat) :
    Except LocateError LocatedEndRecord :=
  match parseRecord (slice input place 56) with
  | .error code => .error (.invalid code)
  | .ok record => .ok ⟨place, record, locator⟩

def flatSearch (input : List UInt8) (locator : Locator) (locatorOffset : Nat) (ps : List Nat) :
    Except LocateError (Option LocatedEndRecord) :=
  match ps.find? (IsRecord input locatorOffset) with
  | none => .ok none
  | some place => (decided input locator place).map some

def orInvalid : Except LocateError (Option LocatedEndRecord) →
    Except LocateError (Option LocatedEndRecord)
  | .ok none => .error (.invalid "zip64_eocd_invalid")
  | answer => answer

/-! ## One place -/

theorem take_slice {l : List UInt8} {n m : Nat} (h : n ≤ m) (k : Nat) :
    (slice l k m).take n = slice l k n := by
  rw [slice, slice, List.take_take, min_eq_left h]

theorem numberAt_take {l l' : List UInt8} {n offset width : Nat} (h : l.take n = l'.take n)
    (hfits : offset + width ≤ n) : numberAt l offset width = numberAt l' offset width := by
  have hslice : ∀ k : List UInt8, slice k offset width = slice (k.take n) offset width := by
    intro k
    have hinner := slice_slice k 0 hfits
    rw [Nat.zero_add] at hinner
    exact hinner.symm
  rw [numberAt, numberAt, hslice l, hslice l', h]

/-- A record is parsed from its first bytes. -/
theorem parseRecord_take {l l' : List UInt8} (h : l.take 56 = l'.take 56)
    (hlength : 56 ≤ l.length) (hlength' : 56 ≤ l'.length) : parseRecord l = parseRecord l' := by
  have hsignature : recordSignature <+: l ↔ recordSignature <+: l' := by
    have hfour := congrArg (List.take 4) h
    rw [List.take_take, List.take_take, show min 4 56 = 4 from rfl] at hfour
    rw [List.prefix_iff_eq_take, List.prefix_iff_eq_take]
    show _ = l.take 4 ↔ _ = l'.take 4
    rw [hfour]
  unfold parseRecord
  by_cases hsigned : recordSignature <+: l
  · have hsigned' := hsignature.1 hsigned
    rw [if_neg (not_or.2 ⟨not_lt.2 hlength, not_not.2 hsigned⟩),
      if_neg (not_or.2 ⟨not_lt.2 hlength', not_not.2 hsigned'⟩)]
    simp only [numberAt_take h (show 4 + 8 ≤ 56 by omega),
      numberAt_take h (show 16 + 4 ≤ 56 by omega), numberAt_take h (show 20 + 4 ≤ 56 by omega),
      numberAt_take h (show 24 + 8 ≤ 56 by omega), numberAt_take h (show 32 + 8 ≤ 56 by omega),
      numberAt_take h (show 40 + 8 ≤ 56 by omega), numberAt_take h (show 48 + 8 ≤ 56 by omega)]
  · rw [if_pos (.inr hsigned), if_pos (.inr fun h' => hsigned (hsignature.2 h'))]

variable {input : List UInt8} {locator : Locator} {locatorOffset : Nat}

/-- `check` on the bytes of a place, as far as the window has them. -/
theorem check_eq (locator : Locator) (hlocator : locatorOffset ≤ input.length) (hlength : input.length < 2 ^ 64)
    {place available : Nat} (havailable : place + available ≤ locatorOffset) :
    check locator locatorOffset place (slice input place available) =
      if 56 ≤ available ∧ IsRecord input locatorOffset place then
        (decided input locator place).map some
      else .ok none := by
  have hlen : (slice input place available).length = available := length_slice (by omega)
  unfold check
  by_cases hshort : available < 56
  · rw [if_pos (.inl (by omega)), if_neg (by omega)]
  have hsame : (slice input place available).take 56 = (slice input place 56).take 56 := by
    rw [take_slice (by omega), take_slice le_rfl]
  have hbegin : recordSignature <+: slice input place available ↔
      slice input place 4 = recordSignature := by
    rw [List.prefix_iff_eq_take]
    show recordSignature = (slice input place available).take 4 ↔ _
    rw [take_slice (by omega)]
    exact eq_comm
  have hnumber : numberAt (slice input place available) 4 8 = numberAt (slice input place 56) 4 8 :=
    numberAt_take hsame (by omega)
  by_cases hsignature : slice input place 4 = recordSignature
  · rw [if_neg (not_or.2 ⟨by omega, not_not.2 (hbegin.2 hsignature)⟩), hnumber]
    have hextent : (checked64 place 12).bind
        (fun start => checked64 start (numberAt (slice input place 56) 4 8)) = some locatorOffset ↔
          place + 12 + numberAt (slice input place 56) 4 8 = locatorOffset := by
      constructor
      · intro h
        obtain ⟨start, hstart, hend⟩ := Option.bind_eq_some_iff.1 h
        obtain ⟨-, rfl⟩ := checked64_eq_some hstart
        exact (checked64_eq_some hend).2.symm
      · intro h
        rw [checked64_of_lt (by omega), Option.bind_some, checked64_of_lt (by omega), h]
    by_cases hends : place + 12 + numberAt (slice input place 56) 4 8 = locatorOffset
    · rw [if_neg (not_not.2 (hextent.2 hends)),
        if_pos ⟨not_lt.1 hshort, by omega, hsignature, hends⟩,
        parseRecord_take hsame (by omega) (by rw [length_slice (by omega)]), decided]
      cases parseRecord (slice input place 56) with
      | error code => rfl
      | ok record => rfl
    · rw [if_pos fun h => hends (hextent.1 h), if_neg fun h => hends h.2.2.2]
  · rw [if_pos (.inr fun h => hsignature (hbegin.1 h)), if_neg fun h => hsignature h.2.2.1]

/-! ## Lists of places -/

theorem flatSearch_cons (place : Nat) (ps : List Nat) :
    flatSearch input locator locatorOffset (place :: ps) =
      if IsRecord input locatorOffset place then (decided input locator place).map some
      else flatSearch input locator locatorOffset ps := by
  unfold flatSearch
  by_cases h : IsRecord input locatorOffset place
  · rw [List.find?_cons_of_pos (by simpa using h), if_pos h]
  · rw [List.find?_cons_of_neg (by simpa using h), if_neg h]

/-- What a search returns after one that may have found nothing. -/
def orElse (first rest : Except LocateError (Option LocatedEndRecord)) :
    Except LocateError (Option LocatedEndRecord) :=
  match first with
  | .error e => .error e
  | .ok (some found) => .ok (some found)
  | .ok none => rest

theorem orElse_decided (place : Nat) (rest : Except LocateError (Option LocatedEndRecord)) :
    orElse ((decided input locator place).map some) rest =
      (decided input locator place).map some := by
  cases decided input locator place <;> rfl

theorem flatSearch_append (ps qs : List Nat) :
    flatSearch input locator locatorOffset (ps ++ qs) =
      orElse (flatSearch input locator locatorOffset ps)
        (flatSearch input locator locatorOffset qs) := by
  induction ps with
  | nil => rfl
  | cons place ps ih =>
    rw [List.cons_append, flatSearch_cons, flatSearch_cons]
    by_cases h : IsRecord input locatorOffset place
    · rw [if_pos h, if_pos h, orElse_decided]
    · rw [if_neg h, if_neg h, ih]

theorem downFrom_succ (base n : Nat) :
    downFrom base (base + (n + 1)) = (base + n) :: downFrom base (base + n) := by
  rw [downFrom, downFrom, Nat.add_sub_cancel_left, Nat.add_sub_cancel_left, List.range'_concat,
    List.reverse_append, Nat.one_mul]
  rfl

theorem downFrom_append {base start stop : Nat} (hbase : base ≤ start) (hstart : start ≤ stop) :
    downFrom base stop = downFrom start stop ++ downFrom base start := by
  rw [downFrom, downFrom, downFrom, ← List.reverse_append]
  congr 1
  have happend := List.range'_append_1 (s := base) (m := start - base) (n := stop - start)
  rw [Nat.add_sub_cancel' hbase] at happend
  rw [happend]
  congr 1
  omega

/-! ## The windows -/

variable {read : Read}

/-- Reads inside the input return its bytes. -/
def Flat (input : List UInt8) (read : Read) : Prop :=
  ∀ offset length, offset + length ≤ input.length → read offset length = .ok (slice input offset length)

theorem tryOffsets_eq (hlocator : locatorOffset ≤ input.length) (hlength : input.length < 2 ^ 64)
    (hread : Flat input read) (offsets : List Nat) :
    tryOffsets read locator locatorOffset offsets =
      flatSearch input locator locatorOffset offsets := by
  induction offsets with
  | nil => rfl
  | cons offset offsets ih =>
    rw [tryOffsets, flatSearch_cons]
    by_cases hfits : offset + 56 ≤ locatorOffset
    · rw [if_pos (by rw [checked64_of_lt (by omega)]; simpa using hfits),
        hread offset 56 (by omega)]
      simp only
      rw [check_eq locator hlocator hlength hfits]
      by_cases h : IsRecord input locatorOffset offset
      · rw [if_pos ⟨le_rfl, h⟩, if_pos h]
        exact orElse_decided offset _
      · rw [if_neg fun h' => h h'.2, if_neg h]
        exact ih
    · rw [if_neg, if_neg fun h => hfits h.1]
      · exact ih
      · intro h
        obtain ⟨sum, hsum, hle⟩ := (Option.any_eq_true _ _).1 h
        obtain ⟨-, rfl⟩ := checked64_eq_some hsum
        exact hfits (of_decide_eq_true hle)

/-- The bytes of a window from an index on. -/
theorem drop_slice (start available index : Nat) :
    (slice input start available).drop index = slice input (start + index) (available - index) := by
  rw [slice, slice, List.drop_take, List.drop_drop]

theorem tryWindow_eq (locator : Locator) (hlocator : locatorOffset ≤ input.length) (hlength : input.length < 2 ^ 64)
    {start stop available : Nat} (hstop : stop ≤ locatorOffset) (hstart : start ≤ stop)
    (havailable : available = min (stop + 55) locatorOffset - start) {n : Nat}
    (hn : n ≤ available) :
    tryWindow locator locatorOffset start (slice input start available) n =
      flatSearch input locator locatorOffset (downFrom start (start + min n (stop - start))) := by
  induction n with
  | zero =>
    rw [Nat.zero_min, downFrom, Nat.add_zero, Nat.sub_self]
    rfl
  | succ n ih =>
    have ih := ih (by omega)
    have hcheck := check_eq locator hlocator hlength
      (show start + n + (available - n) ≤ locatorOffset by omega)
    rw [tryWindow, drop_slice, hcheck]
    have hsign : slice (slice input start available) n 4 = recordSignature ∨
        ¬ (56 ≤ available - n ∧ IsRecord input locatorOffset (start + n)) := by
      by_cases hfits : 56 ≤ available - n
      · rw [slice_slice input start (by omega)]
        by_cases h : slice input (start + n) 4 = recordSignature
        · exact .inl h
        · exact .inr fun h' => h h'.2.2.1
      · exact .inr fun h' => hfits h'.1
    have hsame : ∀ rest : Except LocateError (Option LocatedEndRecord),
        (if slice (slice input start available) n 4 = recordSignature then
          orElse (if 56 ≤ available - n ∧ IsRecord input locatorOffset (start + n) then
            (decided input locator (start + n)).map some else .ok none) rest
        else rest) =
          if 56 ≤ available - n ∧ IsRecord input locatorOffset (start + n) then
            (decided input locator (start + n)).map some
          else rest := by
      intro rest
      by_cases h : 56 ≤ available - n ∧ IsRecord input locatorOffset (start + n)
      · rw [if_pos (hsign.resolve_right (not_not.2 h)), if_pos h, if_pos h, orElse_decided]
      · rw [if_neg h, if_neg h]
        split_ifs <;> rfl
    refine (hsame _).trans ?_
    rw [ih]
    by_cases hinside : n < stop - start
    · rw [min_eq_left (show n + 1 ≤ stop - start by omega), min_eq_left hinside.le, downFrom_succ,
        flatSearch_cons]
      by_cases h : IsRecord input locatorOffset (start + n)
      · have hfits := h.1
        rw [if_pos ⟨by omega, h⟩, if_pos h]
      · rw [if_neg fun h' => h h'.2, if_neg h]
    · rw [if_neg (by omega), min_eq_right (by omega), min_eq_right (by omega)]

theorem scanBack_eq (hlocator : locatorOffset ≤ input.length) (hlength : input.length < 2 ^ 64)
    (hread : Flat input read) (base : Nat) {stop : Nat} (hstop : stop ≤ locatorOffset) :
    scanBack read locator locatorOffset base stop =
      orInvalid (flatSearch input locator locatorOffset (downFrom base stop)) := by
  induction stop using Nat.strong_induction_on with
  | _ stop ih =>
    rw [scanBack]
    by_cases hbase : base < stop
    · have hstart := startOf_lt hbase
      have hle : base ≤ startOf base stop := le_max_right _ _
      obtain ⟨start, hname⟩ : ∃ n, n = startOf base stop := ⟨_, rfl⟩
      rw [← hname] at hstart hle ⊢
      have hend : min (sat64 stop 55) locatorOffset = min (stop + 55) locatorOffset := by
        rw [sat64]
        omega
      obtain ⟨available, havailable⟩ : ∃ n, n = min (stop + 55) locatorOffset - start := ⟨_, rfl⟩
      have hscan := tryWindow_eq locator hlocator hlength hstop hstart.le havailable
        le_rfl
      rw [min_eq_right (by omega), Nat.add_sub_cancel' hstart.le] at hscan
      rw [if_pos hbase, hend, ← havailable, hread _ _ (by omega)]
      simp only
      rw [length_slice (by omega), hscan, ih _ hstart (by omega), downFrom_append hle hstart.le,
        flatSearch_append]
      cases flatSearch input locator locatorOffset (downFrom start stop) with
      | error e => rfl
      | ok answer => cases answer <;> rfl
    · rw [if_neg hbase, downFrom, Nat.sub_eq_zero_of_le (not_lt.1 hbase)]
      rfl

/-- The record in the place that decides is signed, so it is rejected for what it says. -/
theorem decided_ne_invalid (locator : Locator) {place : Nat} (hlocator : locatorOffset ≤ input.length)
    (h : IsRecord input locatorOffset place) :
    (decided input locator place).map some ≠ .error (.invalid "zip64_eocd_invalid") := by
  have hfits := h.1
  have hlen : (slice input place 56).length = 56 := length_slice (by omega)
  have hsigned : recordSignature <+: slice input place 56 := by
    rw [List.prefix_iff_eq_take]
    show recordSignature = (slice input place 56).take 4
    rw [take_slice (by omega), h.2.1]
  rw [decided, parseRecord, if_neg (not_or.2 ⟨by omega, not_not.2 hsigned⟩)]
  dsimp only
  split_ifs <;> simp [Except.map]

theorem orInvalid_iff (hlocator : locatorOffset ≤ input.length) (ps : List Nat) :
    orInvalid (flatSearch input locator locatorOffset ps) =
      .error (.invalid "zip64_eocd_invalid") ↔
        ∀ place ∈ ps, ¬ IsRecord input locatorOffset place := by
  rw [flatSearch]
  cases hfind : ps.find? (IsRecord input locatorOffset) with
  | none => simpa [orInvalid] using List.find?_eq_none.1 hfind
  | some place =>
    have hrecord : IsRecord input locatorOffset place := by simpa using List.find?_some hfind
    have hne := decided_ne_invalid locator hlocator hrecord
    refine iff_of_false (fun h => hne ?_) fun h => h place (List.mem_of_find?_eq_some hfind) hrecord
    dsimp only at h
    rcases hdecided : decided input locator place with e | found
    · rw [hdecided] at h
      exact h
    · rw [hdecided] at h
      cases h

theorem locateEndRecord_eq {diskStarts : Option (List Nat)} {eocd base : Nat}
    (hlength : input.length < 2 ^ 64) (hread : Flat input read) (heocd : eocd ≤ input.length)
    (htwenty : 20 ≤ eocd) (hparse : parseLocator (slice input (eocd - 20) 20) = .ok locator)
    (hdisk : locator.recordDisk < locator.totalDisks)
    (hbase : diskStarts.elim (some 0) (·[locator.recordDisk]?) = some base)
    (hdeclared : base + locator.recordOffset < 2 ^ 64) :
    locateEndRecord eocd diskStarts read =
      orInvalid (flatSearch input locator (eocd - 20)
        (places base (base + locator.recordOffset) (eocd - 20))) := by
  have hsigned : locatorSignature <+: slice input (eocd - 20) 20 := by
    by_contra h
    rw [parseLocator, if_pos (.inr h)] at hparse
    cases hparse
  rw [locateEndRecord, if_neg (by omega), hread _ _ (by omega)]
  simp only [hparse]
  rw [if_neg (not_not.2 hsigned), locateWith, if_neg (by omega), hbase]
  simp only [checked64_of_lt hdeclared]
  rw [tryOffsets_eq (by omega) hlength hread, scanBack_eq (by omega) hlength hread base le_rfl,
    places, flatSearch_append]
  cases flatSearch input locator (eocd - 20) (_ :: _) with
  | error e => rfl
  | ok answer => cases answer <;> rfl

/-! ## The values of a central entry -/

/-- `payload.get(at..at + width)` for each value that is needed; the others stay. -/
def takeValues (payload : List UInt8) : List (Bool × Nat × Nat) → Nat → Option (List Nat)
  | [], _ => some []
  | (needed, width, value) :: rest, at' =>
    if needed then
      if at' + width ≤ payload.length then
        (takeValues payload rest (at' + width)).map (numberAt payload at' width :: ·)
      else none
    else (takeValues payload rest at').map (value :: ·)

def valuesOf (values : List Nat) : CentralValues :=
  ⟨(values.getD 0 0).toUInt64, (values.getD 1 0).toUInt64, (values.getD 2 0).toUInt64,
    values.getD 3 0⟩

/-- The fields of the header: whether the extra field has the value, its width there, and the value
of the header. -/
def headerValues (header : List UInt8) : List (Bool × Nat × Nat) :=
  let uncompressed := numberAt header 24 4
  let compressed := numberAt header 20 4
  let localOffset := numberAt header 42 4
  let disk := numberAt header 34 2
  [(uncompressed = 2 ^ 32 - 1, 8, uncompressed), (compressed = 2 ^ 32 - 1, 8, compressed),
    (localOffset = 2 ^ 32 - 1, 8, localOffset), (disk = 2 ^ 16 - 1, 4, disk)]

/-- The loop over the extra fields; sums of a cursor and a size of 16 bits have no overflow. -/
def extraLoop (wanted : List (Bool × Nat × Nat)) (extra : List UInt8) (cursor : Nat) :
    Option CentralValues :=
  if cursor + 4 ≤ extra.length then
    let size := numberAt extra (cursor + 2) 2
    if cursor + 4 + size ≤ extra.length then
      if numberAt extra cursor 2 = 1 then
        (takeValues (slice extra (cursor + 4) size) wanted 0).map valuesOf
      else extraLoop wanted extra (cursor + 4 + size)
    else none
  else none
termination_by extra.length - cursor

def centralEntryValues (header extra : List UInt8) : Option CentralValues :=
  if header.length < 46 then none
  else if (headerValues header).any (·.1) then extraLoop (headerValues header) extra 0
  else some (valuesOf ((headerValues header).map (·.2.2)))

/-! ## What the extra field has -/

/-- The widths of the values in front of one. -/
def sizeBefore (wanted : List (Bool × Nat × Nat)) (index : Nat) : Nat :=
  ((wanted.take index).map fun value => if value.1 then value.2.1 else 0).sum

/-- The values that are needed lie one after another; the others are those of the header. -/
def readValues (payload : List UInt8) (wanted : List (Bool × Nat × Nat)) (start : Nat) : List Nat :=
  wanted.mapIdx fun index value =>
    if value.1 then numberAt payload (start + sizeBefore wanted index) value.2.1 else value.2.2

theorem readValues_cons (payload : List UInt8) (value : Bool × Nat × Nat)
    (rest : List (Bool × Nat × Nat)) (start : Nat) :
    readValues payload (value :: rest) start =
      (if value.1 then numberAt payload start value.2.1 else value.2.2) ::
        readValues payload rest (start + if value.1 then value.2.1 else 0) := by
  rw [readValues, List.mapIdx_cons, readValues]
  congr 1
  apply congrArg (rest.mapIdx ·)
  funext index next
  rw [sizeBefore, List.take_succ_cons, List.map_cons, List.sum_cons, ← Nat.add_assoc]
  rfl

theorem takeValues_eq {payload : List UInt8} (wanted : List (Bool × Nat × Nat)) {start : Nat}
    (hstart : start ≤ payload.length) :
    takeValues payload wanted start =
      if start + sizeBefore wanted wanted.length ≤ payload.length then
        some (readValues payload wanted start)
      else none := by
  induction wanted generalizing start with
  | nil => exact (if_pos hstart).symm
  | cons value rest ih =>
    obtain ⟨needed, width, own⟩ := value
    have hsize : sizeBefore ((needed, width, own) :: rest) (rest.length + 1) =
        (if needed then width else 0) + sizeBefore rest rest.length := by
      rw [sizeBefore, List.take_succ_cons, List.map_cons, List.sum_cons]
      rfl
    rw [takeValues, readValues_cons, List.length_cons, hsize]
    cases needed with
    | true =>
      simp only [if_true]
      by_cases hfits : start + width ≤ payload.length
      · rw [if_pos hfits, ih hfits, ← Nat.add_assoc]
        split_ifs <;> rfl
      · rw [if_neg hfits, if_neg (by omega)]
    | false =>
      simp only [Bool.false_eq_true, if_false, Nat.add_zero, Nat.zero_add]
      rw [ih hstart]
      split_ifs <;> rfl

structure ExtraField where
  fieldId : Nat
  payload : List UInt8
  fieldId_lt : fieldId < 2 ^ 16
  length_lt : payload.length < 2 ^ 16

def ExtraField.bytes (f : ExtraField) : List UInt8 :=
  leBytes 2 f.fieldId ++ leBytes 2 f.payload.length ++ f.payload

theorem ExtraField.length_bytes (f : ExtraField) : f.bytes.length = 4 + f.payload.length := by
  rw [bytes, List.length_append, List.length_append, leBytes_length, leBytes_length]

variable {extra tail : List UInt8} {cursor : Nat}

/-- What the loop reads where a field starts. -/
theorem read_field {f : ExtraField} (h : extra.drop cursor = f.bytes ++ tail) :
    cursor + 4 + f.payload.length ≤ extra.length ∧ numberAt extra cursor 2 = f.fieldId ∧
      numberAt extra (cursor + 2) 2 = f.payload.length ∧
      slice extra (cursor + 4) f.payload.length = f.payload ∧
      extra.drop (cursor + 4 + f.payload.length) = tail := by
  have hlength := congrArg List.length h
  rw [List.length_drop, List.length_append, f.length_bytes] at hlength
  have hslice : ∀ start length, slice extra (cursor + start) length =
      slice (f.bytes ++ tail) start length := by
    intro start length
    rw [slice, slice, ← h, List.drop_drop]
  rw [ExtraField.bytes, List.append_assoc, List.append_assoc] at h hslice
  refine ⟨by omega, ?_, ?_, ?_, ?_⟩
  · rw [numberAt, ← Nat.add_zero cursor, hslice, slice, List.drop_zero,
      List.take_left' (leBytes_length _ _), ofLeBytes_leBytes_of_lt f.fieldId_lt]
  · rw [numberAt, hslice, slice, List.drop_left' (leBytes_length _ _),
      List.take_left' (leBytes_length _ _), ofLeBytes_leBytes_of_lt f.length_lt]
  · rw [hslice, slice, ← List.append_assoc, List.drop_left' (by simp), List.take_left' rfl]
  · rw [Nat.add_assoc, ← List.drop_drop, h, ← List.append_assoc, ← List.append_assoc,
      List.drop_left' (by simp; omega)]

theorem numberAt_lt (bytes : List UInt8) (offset width : Nat) :
    numberAt bytes offset width < 256 ^ width := by
  have hlength : (slice bytes offset width).length ≤ width := List.length_take_le _ _
  exact (ofLeBytes_lt _).trans_le (Nat.pow_le_pow_right (by norm_num) hlength)

/-- What the loop steps over is a field. -/
theorem field_of_read (hfits : cursor + 4 + numberAt extra (cursor + 2) 2 ≤ extra.length) :
    ∃ f : ExtraField, f.fieldId = numberAt extra cursor 2 ∧
      f.payload = slice extra (cursor + 4) (numberAt extra (cursor + 2) 2) ∧
      extra.drop cursor =
        f.bytes ++ extra.drop (cursor + 4 + numberAt extra (cursor + 2) 2) := by
  obtain ⟨size, hsize⟩ : ∃ n, n = numberAt extra (cursor + 2) 2 := ⟨_, rfl⟩
  rw [← hsize] at hfits ⊢
  have hpayload : (slice extra (cursor + 4) size).length = size := length_slice hfits
  have hbytes : ∀ start, start + 2 ≤ extra.length →
      leBytes 2 (numberAt extra start 2) = slice extra start 2 := by
    intro start h
    have hback := leBytes_ofLeBytes (slice extra start 2)
    rwa [length_slice h] at hback
  refine ⟨⟨numberAt extra cursor 2, slice extra (cursor + 4) size, numberAt_lt _ _ _, ?_⟩, rfl, rfl,
    ?_⟩
  · rw [hpayload, hsize]
    exact numberAt_lt _ _ _
  · rw [ExtraField.bytes]
    dsimp only
    rw [hpayload, hbytes _ (by omega), hsize, hbytes _ (by omega), ← hsize, ← slice_add,
      ← slice_add, slice, Nat.add_assoc cursor 4 size, ← List.drop_drop]
    exact (List.take_append_drop _ _).symm

/-- The loop finds the first field of ZIP64, if only whole fields stand in front of it. -/
theorem extraLoop_iff (wanted : List (Bool × Nat × Nat)) (cursor : Nat) (values : CentralValues) :
    extraLoop wanted extra cursor = some values ↔
      ∃ (fields : List ExtraField) (zip64 : ExtraField) (rest : List UInt8),
        extra.drop cursor = fields.flatMap ExtraField.bytes ++ (zip64.bytes ++ rest) ∧
        (∀ f ∈ fields, f.fieldId ≠ 1) ∧ zip64.fieldId = 1 ∧
        (takeValues zip64.payload wanted 0).map valuesOf = some values := by
  induction hn : extra.length - cursor using Nat.strong_induction_on generalizing cursor with
  | _ n ih =>
    rw [extraLoop]
    dsimp only
    by_cases hfits : cursor + 4 + numberAt extra (cursor + 2) 2 ≤ extra.length
    · rw [if_pos (by omega), if_pos hfits]
      obtain ⟨first, hid, hpayload, hdrop⟩ := field_of_read hfits
      by_cases hzip64 : numberAt extra cursor 2 = 1
      · rw [if_pos hzip64, ← hpayload]
        constructor
        · intro h
          exact ⟨[], first, _, hdrop, fun f hf => absurd hf List.not_mem_nil, hid.trans hzip64, h⟩
        · rintro ⟨fields, zip64, rest, hextra, hothers, hid', h⟩
          cases fields with
          | nil =>
            obtain ⟨-, -, hsize, hslice, -⟩ := read_field hextra
            rw [hpayload, hsize, hslice]
            exact h
          | cons f fields =>
            rw [List.flatMap_cons, List.append_assoc] at hextra
            exact absurd ((read_field hextra).2.1.symm.trans hzip64)
              (hothers f List.mem_cons_self)
      · rw [if_neg hzip64, ih _ (by omega) _ rfl]
        constructor
        · rintro ⟨fields, zip64, rest, hextra, hothers, h⟩
          refine ⟨first :: fields, zip64, rest, ?_, ?_, h⟩
          · rw [List.flatMap_cons, List.append_assoc, ← hextra]
            exact hdrop
          · intro f hf
            rcases List.mem_cons.1 hf with rfl | hf
            · exact fun h => hzip64 (hid.symm.trans h)
            · exact hothers f hf
        · rintro ⟨fields, zip64, rest, hextra, hothers, hid', h⟩
          cases fields with
          | nil => exact absurd ((read_field hextra).2.1.trans hid') hzip64
          | cons f fields =>
            rw [List.flatMap_cons, List.append_assoc] at hextra
            obtain ⟨-, -, hsize, -, htail⟩ := read_field hextra
            rw [hsize]
            exact ⟨fields, zip64, rest, htail, fun g hg => hothers g (List.mem_cons_of_mem _ hg),
              hid', h⟩
    · rw [show (if cursor + 4 ≤ extra.length then _ else none : Option CentralValues) = none by
        rw [if_neg hfits]
        split_ifs <;> rfl]
      refine iff_of_false (by simp) ?_
      rintro ⟨fields, zip64, rest, hextra, -⟩
      cases fields with
      | nil =>
        obtain ⟨h, -, hsize, -⟩ := read_field hextra
        exact hfits (hsize ▸ h)
      | cons f fields =>
        rw [List.flatMap_cons, List.append_assoc] at hextra
        obtain ⟨h, -, hsize, -⟩ := read_field hextra
        exact hfits (hsize ▸ h)

/-! ## Both together -/

/-- A locator that passes the checks leads to what the flat search finds, and the values of a central
entry are those that its header marks, one after another in the first field of ZIP64. -/
theorem zip64_spec {diskStarts : Option (List Nat)} {eocd base : Nat}
    (hlength : input.length < 2 ^ 64) (hread : Flat input read) (heocd : eocd ≤ input.length)
    (htwenty : 20 ≤ eocd) (hparse : parseLocator (slice input (eocd - 20) 20) = .ok locator)
    (hdisk : locator.recordDisk < locator.totalDisks)
    (hbase : diskStarts.elim (some 0) (·[locator.recordDisk]?) = some base)
    (hdeclared : base + locator.recordOffset < 2 ^ 64) :
    locateEndRecord eocd diskStarts read =
      orInvalid (flatSearch input locator (eocd - 20)
        (places base (base + locator.recordOffset) (eocd - 20))) ∧
    (locateEndRecord eocd diskStarts read = .error (.invalid "zip64_eocd_invalid") ↔
      ∀ place ∈ places base (base + locator.recordOffset) (eocd - 20),
        ¬ IsRecord input (eocd - 20) place) ∧
    ∀ (header extra : List UInt8) (values : CentralValues),
      centralEntryValues header extra = some values ↔ 46 ≤ header.length ∧
        ((∀ value ∈ headerValues header, value.1 = false) ∧
          values = valuesOf ((headerValues header).map (·.2.2)) ∨
        (∃ value ∈ headerValues header, value.1 = true) ∧
          ∃ (fields : List ExtraField) (zip64 : ExtraField) (rest : List UInt8),
            extra = fields.flatMap ExtraField.bytes ++ (zip64.bytes ++ rest) ∧
            (∀ f ∈ fields, f.fieldId ≠ 1) ∧ zip64.fieldId = 1 ∧
            sizeBefore (headerValues header) 4 ≤ zip64.payload.length ∧
            values = valuesOf (readValues zip64.payload (headerValues header) 0)) := by
  have hlocate := locateEndRecord_eq hlength hread heocd htwenty hparse hdisk hbase hdeclared
  refine ⟨hlocate, ?_, fun header extra values => ?_⟩
  · rw [hlocate]
    exact orInvalid_iff (by omega) _
  · rw [centralEntryValues]
    by_cases hheader : header.length < 46
    · rw [if_pos hheader]
      exact iff_of_false (by simp) fun h => by omega
    rw [if_neg hheader]
    by_cases hany : (headerValues header).any (·.1) = true
    · rw [if_pos hany, extraLoop_iff, List.drop_zero]
      have hsome : ∃ value ∈ headerValues header, value.1 = true := List.any_eq_true.1 hany
      have htake : ∀ payload : List UInt8,
          (takeValues payload (headerValues header) 0).map valuesOf = some values ↔
            sizeBefore (headerValues header) 4 ≤ payload.length ∧
              values = valuesOf (readValues payload (headerValues header) 0) := by
        intro payload
        rw [takeValues_eq _ (Nat.zero_le _), Nat.zero_add, show (headerValues header).length = 4 from
          rfl]
        split_ifs with hfits
        · simp [hfits, eq_comm]
        · simp [hfits]
      simp only [htake]
      constructor
      · exact fun h => ⟨not_lt.1 hheader, .inr ⟨hsome, h⟩⟩
      · rintro ⟨-, ⟨hnone, -⟩ | ⟨-, h⟩⟩
        · obtain ⟨value, hmem, hneeded⟩ := hsome
          exact absurd (hneeded.symm.trans (hnone value hmem)) (by decide)
        · exact h
    · rw [if_neg hany]
      have hnone : ∀ value ∈ headerValues header, value.1 = false := by
        intro value hmem
        cases hneeded : value.1 with
        | false => rfl
        | true => exact absurd (List.any_eq_true.2 ⟨value, hmem, hneeded⟩) hany
      constructor
      · intro h
        exact ⟨not_lt.1 hheader, .inl ⟨hnone, (Option.some.inj h).symm⟩⟩
      · rintro ⟨-, ⟨-, h⟩ | ⟨⟨value, hmem, hneeded⟩, -⟩⟩
        · rw [h]
        · exact absurd (hneeded.symm.trans (hnone value hmem)) (by decide)

/-- Four bytes in front of an archive: the record is not where the locator says. -/
def shiftedInput : List UInt8 :=
  [1, 2, 3, 4] ++ (recordSignature ++ leBytes 8 44 ++ List.replicate 44 0) ++
    (locatorSignature ++ leBytes 4 0 ++ leBytes 8 0 ++ leBytes 4 1)

def shiftedRead (offset length : Nat) : Except ReadError (List UInt8) :=
  if offset + length ≤ shiftedInput.length then .ok (slice shiftedInput offset length)
  else .error .exceeds

theorem shifted_spec : locateEndRecord 80 none shiftedRead =
    .ok (some ⟨4, ⟨44, 0, 0, 0, 0, 0, 0⟩, ⟨0, 0, 1⟩⟩) := by
  have hread : Flat shiftedInput shiftedRead := fun offset length h => if_pos h
  have hspec := @zip64_spec shiftedInput ⟨0, 0, 1⟩ shiftedRead none 80 0 (by decide) hread
    (by decide) (by decide) rfl (by decide) rfl (by decide)
  exact hspec.1

end Sunpack.ArchiveState.Zip64
