import Sunpack.Lib.Sums64
import Sunpack.Scratch.Spool

/-!
# Rows

`RowBuilder` and `Rows` of `scratch.rs`: a list of rows in memory, and two spools once it is too large.
A spilled row that is updated is written anew behind the others, and its offset is written over.
-/

namespace Sunpack.Scratch

open Sunpack.Lib

/-- What rows rest on: MessagePack, which reads a row from what begins with it and may have read ahead
then, and how much is held in memory. -/
structure RowSetting (T : Type) where
  memoryBytes : Nat
  encode : T → Bytes
  decode : Bytes → Option T
  decode_append : ∀ value rest, decode (encode value ++ rest) = some value
  readAhead : Bytes → Nat

structure RowBuilder (T : Type) where
  memory : List T
  bytes : Nat
  disk : Option (Spool × Spool)
  count : Nat

inductive Rows (T : Type) where
  | memory (rows : List T)
  | disk (data offsets : Bytes) (count : Nat)

variable {T : Type} (r : RowSetting T)

def appendRow (disk : Spool × Spool) (value : T) : Spool × Spool :=
  (disk.1.seekEnd.write r.memoryBytes (r.encode value),
    disk.2.seekEnd.write r.memoryBytes (leBytes 8 disk.1.seekEnd.position))

namespace RowBuilder

def empty : RowBuilder T := ⟨[], 0, none, 0⟩

/-- More bytes; the rows go to the disk if they are too many. -/
def addBytes (b : RowBuilder T) (bytes : Nat) : RowBuilder T :=
  let bytes := sat64 b.bytes bytes
  if b.disk.isNone && decide (r.memoryBytes < bytes) then
    { b with
      memory := []
      bytes := bytes
      disk := some (b.memory.foldl (appendRow r) (Spool.empty, Spool.empty)) }
  else { b with bytes := bytes }

def push (b : RowBuilder T) (value : T) (bytes : Nat) : RowBuilder T :=
  let b := b.addBytes r bytes
  match b.disk with
  | some disk => { b with disk := some (appendRow r disk value), count := b.count + 1 }
  | none => { b with memory := b.memory ++ [value], count := b.count + 1 }

/-- The row is read, changed and written to the end, and its offset after that. -/
def updateDisk (disk : Spool × Spool) (index : Nat) (change : T → T) : Option (Spool × Spool) :=
  ((disk.2.seekStart (index * 8)).readExact 8).bind fun offset =>
    let data := disk.1.seekStart (ofLeBytes offset.1)
    let rest := data.cursor.items.drop data.position
    (r.decode rest).map fun value =>
      let data := (data.read (r.readAhead rest)).2.seekEnd
      (data.write r.memoryBytes (r.encode (change value)),
        (offset.2.seekStart (index * 8)).write r.memoryBytes (leBytes 8 data.position))

/-- There is no row behind the last one to update. -/
def update (b : RowBuilder T) (index : Nat) (change : T → T) : Option (RowBuilder T) :=
  match b.disk with
  | some disk => (updateDisk r disk index change).map fun disk => { b with disk := some disk }
  | none =>
    if index < b.memory.length then some { b with memory := b.memory.modify index change } else none

def finish (b : RowBuilder T) : Rows T :=
  match b.disk with
  | some disk => .disk disk.1.finish disk.2.finish b.count
  | none => .memory b.memory

end RowBuilder

namespace Rows

def len : Rows T → Nat
  | .memory rows => rows.length
  | .disk _ _ count => count

/-- A spilled row begins what is borrowed; a row in memory is not serialized. -/
def serialized : Rows T → Nat → Option (Option Bytes)
  | .memory rows, index => if rows.length ≤ index then none else some none
  | .disk data offsets count, index =>
    if count ≤ index then none
    else some (some (data.drop (ofLeBytes (slice offsets (index * 8) 8))))

/-- The row as its callers get it. -/
def row : Rows T → Nat → Option T
  | .memory rows, index => rows[index]?
  | .disk data offsets count, index =>
    ((Rows.disk data offsets count : Rows T).serialized index).bind fun bytes => bytes.bind r.decode

end Rows

/-! ## Calls -/

inductive RowCall (T : Type) where
  | push (value : T) (bytes : Nat)
  | update (index : Nat) (change : T → T)

def RowBuilder.call (b : RowBuilder T) : RowCall T → Option (RowBuilder T)
  | .push value bytes => some (b.push r value bytes)
  | .update index change => b.update r index change

def RowBuilder.run (calls : List (RowCall T)) (b : RowBuilder T) : Option (RowBuilder T) :=
  calls.foldlM (RowBuilder.call r) b

namespace RowCall

/-- The call on a plain list. -/
def onList (rows : List T) : RowCall T → Option (List T)
  | .push value _ => some (rows ++ [value])
  | .update index change => if index < rows.length then some (rows.modify index change) else none

/-- The row that a call is to write. -/
def written (rows : List T) : RowCall T → Option T
  | .push value _ => some value
  | .update index change => rows[index]?.map change

end RowCall

/-- The bytes of all rows that the calls write. -/
def bytesWritten : List (RowCall T) → List T → Nat
  | [], _ => 0
  | call :: calls, rows =>
    ((call.written rows).elim 0 fun value => (r.encode value).length) +
      bytesWritten calls ((call.onList rows).getD rows)

/-! ## Rows on the disk -/

def encodedBytes (rows : List T) : Nat := (rows.map fun value => (r.encode value).length).sum

theorem encodedBytes_modify_le (rows : List T) (index : Nat) (change : T → T) :
    encodedBytes r (rows.modify index change) ≤
      encodedBytes r rows + (rows[index]?.map change).elim 0 fun value => (r.encode value).length := by
  induction rows generalizing index with
  | nil => simp
  | cons row rows ih =>
    cases index with
    | zero =>
      rw [List.modify_zero_cons]
      simp only [encodedBytes, List.map_cons, List.sum_cons, List.getElem?_cons_zero,
        Option.map_some, Option.elim_some]
      omega
    | succ index =>
      have hrest := ih index
      rw [List.modify_succ_cons, List.getElem?_cons_succ]
      simp only [encodedBytes, List.map_cons, List.sum_cons] at hrest ⊢
      omega

variable {r}

/-- The rows are in the bytes of two spools. -/
structure OnDisk (r : RowSetting T) (disk : Spool × Spool) (rows : List T) (size : Nat)
    (data offsets : Bytes) : Prop where
  dataIs : disk.1.Is ⟨data, disk.1.position⟩
  offsetsIs : disk.2.Is ⟨offsets, disk.2.position⟩
  le_size : data.length ≤ size
  length_eq : offsets.length = rows.length * 8
  stands : ∀ index value, rows[index]? = some value → ∃ start < 2 ^ 64,
    StandsAt offsets (index * 8) (leBytes 8 start) ∧ StandsAt data start (r.encode value)

theorem onDisk_empty : OnDisk r (Spool.empty, Spool.empty) [] 0 [] [] where
  dataIs := Spool.is_empty
  offsetsIs := Spool.is_empty
  le_size := le_rfl
  length_eq := rfl
  stands index value h := by cases h

variable {disk : Spool × Spool} {rows : List T} {size : Nat} {data offsets : Bytes}

theorem is_of_is {s : Spool} {c : Cursor UInt8} (h : s.Is c) : s.Is ⟨c.items, s.position⟩ := by
  rw [h.position]
  exact h

theorem OnDisk.appendRow (h : OnDisk r disk rows size data offsets) (hsize : size < 2 ^ 64)
    (value : T) :
    OnDisk r (appendRow r disk value) (rows ++ [value]) (size + (r.encode value).length)
      (data ++ r.encode value) (offsets ++ leBytes 8 data.length) := by
  have hend : disk.1.seekEnd.Is ⟨data, data.length⟩ := h.dataIs.seekEnd
  have hoffsets : disk.2.seekEnd.Is ⟨offsets, offsets.length⟩ := h.offsetsIs.seekEnd
  have hle := h.le_size
  have hlength := h.length_eq
  refine ⟨is_of_is (hend.append r.memoryBytes _), ?_, ?_, ?_, fun index row hrow => ?_⟩
  · have hposition : disk.1.seekEnd.position = data.length := hend.position
    have hwritten := is_of_is (hoffsets.append r.memoryBytes (leBytes 8 data.length))
    rw [← hposition] at hwritten ⊢
    exact hwritten
  · rw [List.length_append]
    omega
  · rw [List.length_append, leBytes_length, List.length_append, List.length_singleton]
    omega
  · rcases Nat.lt_or_ge index rows.length with hlt | hge
    · rw [List.getElem?_append_left hlt] at hrow
      obtain ⟨start, hstart, hoffset, hdata⟩ := h.stands index row hrow
      exact ⟨start, hstart, hoffset.append _, hdata.append _⟩
    · rw [List.getElem?_append_right hge] at hrow
      have hindex : index = rows.length := by
        obtain ⟨hlt, -⟩ := List.getElem?_eq_some_iff.1 hrow
        rw [List.length_singleton] at hlt
        omega
      subst hindex
      rw [Nat.sub_self] at hrow
      have hvalue : value = row := Option.some.inj hrow
      subst hvalue
      refine ⟨data.length, by omega, ?_, standsAt_end data _⟩
      rw [← h.length_eq]
      exact standsAt_end offsets _

theorem OnDisk.mono (h : OnDisk r disk rows size data offsets) {more : Nat} (hmore : size ≤ more) :
    OnDisk r disk rows more data offsets :=
  ⟨h.dataIs, h.offsetsIs, le_trans h.le_size hmore, h.length_eq, h.stands⟩

theorem OnDisk.appendRows (h : OnDisk r disk rows size data offsets) (more : List T)
    (hsize : size + encodedBytes r more < 2 ^ 64) :
    ∃ data' offsets', OnDisk r (more.foldl (Scratch.appendRow r) disk) (rows ++ more)
      (size + encodedBytes r more) data' offsets' := by
  induction more generalizing disk rows size data offsets with
  | nil =>
    rw [List.append_nil]
    exact ⟨data, offsets, h⟩
  | cons value more ih =>
    have hsplit : size + encodedBytes r (value :: more) =
        size + (r.encode value).length + encodedBytes r more := by
      simp only [encodedBytes, List.map_cons, List.sum_cons]
      omega
    rw [hsplit] at hsize ⊢
    have hrest := ih (h.appendRow (by omega) value) hsize
    rwa [List.append_assoc] at hrest

/-- Reading a row begins at its offset. -/
theorem OnDisk.decode (h : OnDisk r disk rows size data offsets) {index : Nat} {value : T}
    (hrow : rows[index]? = some value) :
    r.decode (data.drop (ofLeBytes (slice offsets (index * 8) 8))) = some value := by
  obtain ⟨start, hstart, hoffset, hdata⟩ := h.stands index value hrow
  have hslice := hoffset.slice
  rw [leBytes_length] at hslice
  rw [hslice, ofLeBytes_leBytes_of_lt (lt_of_lt_of_le hstart (by norm_num)), hdata.drop_eq]
  exact r.decode_append value _

/-- An updated row is behind the others, and they are where they were. -/
theorem OnDisk.update (h : OnDisk r disk rows size data offsets) {index : Nat}
    (hindex : index < rows.length) (hsize : size < 2 ^ 64) (change : T → T) (value : T)
    (hrow : rows[index]? = some value) :
    ∃ disk' data' offsets', RowBuilder.updateDisk r disk index change = some disk' ∧
      OnDisk r disk' (rows.modify index change) (size + (r.encode (change value)).length) data'
        offsets' := by
  have hle := h.le_size
  have hlength := h.length_eq
  have hread : ∃ offsets', ((disk.2.seekStart (index * 8)).readExact 8) =
      some (slice offsets (index * 8) 8, offsets') ∧ offsets'.Is ⟨offsets, offsets'.position⟩ := by
    obtain ⟨hbytes, his⟩ := (h.offsetsIs.seekStart (index * 8)).read 8
    have hgot : ((disk.2.seekStart (index * 8)).read 8).1 = slice offsets (index * 8) 8 := hbytes
    refine ⟨((disk.2.seekStart (index * 8)).read 8).2, ?_, is_of_is his⟩
    unfold Spool.readExact
    rw [if_neg, ← hgot]
    rw [hgot, length_slice]
    omega
  obtain ⟨offsets', hread, hoffsets⟩ := hread
  have hseek := h.dataIs.seekStart (ofLeBytes (slice offsets (index * 8) 8))
  have hrest : (disk.1.seekStart (ofLeBytes (slice offsets (index * 8) 8))).cursor.items.drop
      (disk.1.seekStart (ofLeBytes (slice offsets (index * 8) 8))).position =
        data.drop (ofLeBytes (slice offsets (index * 8) 8)) := by
    rw [hseek.cursor]
    rfl
  have hend : ∀ n, ((disk.1.seekStart (ofLeBytes (slice offsets (index * 8) 8))).read
      n).2.seekEnd.Is ⟨data, data.length⟩ :=
    fun n => (hseek.read n).2.seekEnd
  have hwritten := fun n => (hend n).append r.memoryBytes (r.encode (change value))
  have hover := (hoffsets.seekStart (index * 8)).write r.memoryBytes (leBytes 8 data.length)
  unfold RowBuilder.updateDisk
  rw [hread, Option.bind_some]
  simp only [hrest, h.decode hrow, Option.map_some]
  refine ⟨_, data ++ r.encode (change value), overwrite 0 offsets (index * 8)
    (leBytes 8 data.length), rfl, is_of_is (hwritten _), ?_, ?_, ?_, fun other row hother => ?_⟩
  · simp only [(hend _).position]
    exact is_of_is hover
  · rw [List.length_append]
    omega
  · rw [length_overwrite, leBytes_length, List.length_modify]
    omega
  · rw [List.getElem?_modify] at hother
    rcases eq_or_ne index other with heq | hne
    · subst heq
      rw [hrow] at hother
      have hvalue : change value = row := by simpa using hother
      subst hvalue
      exact ⟨data.length, by omega, standsAt_overwrite (by omega) 0 _, standsAt_end data _⟩
    · have hold : rows[other]? = some row := by
        rw [← hother]
        simp [hne]
      obtain ⟨start, hstart, hoffset, hdata⟩ := h.stands other row hold
      refine ⟨start, hstart, hoffset.overwrite (by omega) 0 ?_, hdata.append _⟩
      rw [leBytes_length, leBytes_length]
      omega

/-- Behind the last offset there is nothing to read. -/
theorem OnDisk.update_none (h : OnDisk r disk rows size data offsets) {index : Nat}
    (hindex : rows.length ≤ index) (change : T → T) :
    RowBuilder.updateDisk r disk index change = none := by
  have hlength := h.length_eq
  have hgot : ((disk.2.seekStart (index * 8)).read 8).1 = slice offsets (index * 8) 8 :=
    ((h.offsetsIs.seekStart (index * 8)).read 8).1
  unfold RowBuilder.updateDisk Spool.readExact
  rw [if_pos]
  · rfl
  · rw [hgot, length_slice]
    omega

/-! ## The builder -/

namespace RowBuilder

/-- The rows are in memory or in two spools. -/
structure Shows (r : RowSetting T) (b : RowBuilder T) (rows : List T) (size : Nat) : Prop where
  count : b.count = rows.length
  stored : b.disk = none ∧ b.memory = rows ∧ encodedBytes r rows ≤ size ∨
    ∃ disk data offsets, b.disk = some disk ∧ OnDisk r disk rows size data offsets

variable {b : RowBuilder T}

theorem shows_empty : (empty : RowBuilder T).Shows r [] 0 :=
  ⟨rfl, .inl ⟨rfl, rfl, le_rfl⟩⟩

theorem Shows.addBytes (h : b.Shows r rows size) (hsize : size < 2 ^ 64) (bytes : Nat) :
    (b.addBytes r bytes).Shows r rows size := by
  obtain ⟨hcount, hstored⟩ := h
  unfold RowBuilder.addBytes
  simp only
  split_ifs with hspills
  · rw [Bool.and_eq_true, Option.isNone_iff_eq_none] at hspills
    rcases hstored with ⟨-, rfl, hle⟩ | ⟨disk, data, offsets, hsome, -⟩
    · have hempty : OnDisk r (Spool.empty, Spool.empty) [] 0 [] [] := onDisk_empty
      obtain ⟨data, offsets, hdisk⟩ := hempty.appendRows b.memory (by omega)
      rw [List.nil_append, Nat.zero_add] at hdisk
      exact ⟨hcount, .inr ⟨_, data, offsets, rfl, hdisk.mono hle⟩⟩
    · rw [hspills.1] at hsome
      cases hsome
  · exact ⟨hcount, hstored⟩

theorem Shows.push (h : b.Shows r rows size) {value : T}
    (hsize : size + (r.encode value).length < 2 ^ 64) (bytes : Nat) :
    (b.push r value bytes).Shows r (rows ++ [value]) (size + (r.encode value).length) := by
  obtain ⟨hcount, hstored⟩ := h.addBytes (by omega) bytes
  have hmore : (b.addBytes r bytes).count + 1 = (rows ++ [value]).length := by
    rw [hcount, List.length_append, List.length_singleton]
  unfold RowBuilder.push
  rcases hstored with ⟨hnone, hrows, hle⟩ | ⟨disk, data, offsets, hsome, hdisk⟩
  · simp only [hnone]
    refine ⟨hmore, .inl ⟨rfl, by rw [hrows], ?_⟩⟩
    simp only [encodedBytes, List.map_append, List.sum_append, List.map_cons, List.map_nil,
      List.sum_singleton] at hle ⊢
    omega
  · simp only [hsome]
    exact ⟨hmore, .inr ⟨_, _, _, rfl, hdisk.appendRow (by omega) value⟩⟩

theorem Shows.update (h : b.Shows r rows size) (hsize : size < 2 ^ 64) {index : Nat} {value : T}
    (hrow : rows[index]? = some value) (change : T → T) :
    ∃ b', b.update r index change = some b' ∧
      b'.Shows r (rows.modify index change) (size + (r.encode (change value)).length) := by
  obtain ⟨hcount, hstored⟩ := h
  have hindex : index < rows.length := (List.getElem?_eq_some_iff.1 hrow).1
  have hsame : b.count = (rows.modify index change).length := by rw [hcount, List.length_modify]
  unfold RowBuilder.update
  rcases hstored with ⟨hnone, hrows, hle⟩ | ⟨disk, data, offsets, hsome, hdisk⟩
  · subst hrows
    simp only [hnone]
    rw [if_pos hindex]
    refine ⟨_, rfl, hsame, .inl ⟨rfl, rfl, ?_⟩⟩
    have hmodify := encodedBytes_modify_le r b.memory index change
    rw [hrow, Option.map_some, Option.elim_some] at hmodify
    show encodedBytes r (b.memory.modify index change) ≤ _
    omega
  · simp only [hsome]
    obtain ⟨disk', data', offsets', hupdate, hdisk'⟩ := hdisk.update hindex hsize change value hrow
    rw [hupdate]
    exact ⟨_, rfl, hsame, .inr ⟨disk', data', offsets', rfl, hdisk'⟩⟩

theorem Shows.update_none (h : b.Shows r rows size) {index : Nat} (hindex : rows.length ≤ index)
    (change : T → T) : b.update r index change = none := by
  unfold RowBuilder.update
  rcases h.stored with ⟨hnone, hrows, -⟩ | ⟨disk, data, offsets, hsome, hdisk⟩
  · subst hrows
    simp only [hnone]
    rw [if_neg (by omega)]
  · simp only [hsome]
    rw [hdisk.update_none hindex change]
    rfl

/-- One call: the plain list with the same call, and no row where it has none. -/
theorem Shows.call (h : b.Shows r rows size) (call : RowCall T)
    (hsize : size + ((call.written rows).elim 0 fun value => (r.encode value).length) < 2 ^ 64) :
    call.onList rows = none ∧ b.call r call = none ∨
      ∃ rows' b', call.onList rows = some rows' ∧ b.call r call = some b' ∧
        b'.Shows r rows' (size + (call.written rows).elim 0 fun value => (r.encode value).length) := by
  cases call with
  | push value bytes => exact .inr ⟨_, _, rfl, rfl, h.push hsize bytes⟩
  | update index change =>
    rcases Nat.lt_or_ge index rows.length with hlt | hge
    · have hrow := List.getElem?_eq_getElem hlt
      obtain ⟨b', hupdate, hshows⟩ := h.update (by omega) hrow change
      refine .inr ⟨rows.modify index change, b', if_pos hlt, hupdate, ?_⟩
      show b'.Shows r _ (size + (rows[index]?.map change).elim 0 _)
      rw [hrow]
      exact hshows
    · exact .inl ⟨if_neg (by omega), h.update_none hge change⟩

theorem Shows.run (h : b.Shows r rows size) (calls : List (RowCall T))
    (hsize : size + bytesWritten r calls rows < 2 ^ 64) :
    calls.foldlM RowCall.onList rows = none ∧ RowBuilder.run r calls b = none ∨
      ∃ rows' b', calls.foldlM RowCall.onList rows = some rows' ∧
        RowBuilder.run r calls b = some b' ∧
        b'.Shows r rows' (size + bytesWritten r calls rows) := by
  induction calls generalizing b rows size with
  | nil => exact .inr ⟨rows, b, rfl, rfl, h⟩
  | cons call calls ih =>
    have hbytes : bytesWritten r (call :: calls) rows =
        ((call.written rows).elim 0 fun value => (r.encode value).length) +
          bytesWritten r calls ((call.onList rows).getD rows) := rfl
    have hrun : RowBuilder.run r (call :: calls) b =
        (b.call r call).bind (RowBuilder.run r calls) := rfl
    rw [hbytes, ← Nat.add_assoc] at hsize ⊢
    rw [List.foldlM_cons, hrun]
    rcases h.call call (by omega) with ⟨hlist, hcall⟩ | ⟨rows', b', hlist, hcall, hshows⟩
    · rw [hlist, hcall]
      exact .inl ⟨rfl, rfl⟩
    · rw [hlist, Option.getD_some] at hsize ⊢
      rw [hcall]
      exact ih hshows hsize

theorem row_disk (data offsets : Bytes) (count index : Nat) :
    (Rows.disk data offsets count).row r index = if count ≤ index then none
      else r.decode (data.drop (ofLeBytes (slice offsets (index * 8) 8))) := by
  show (if count ≤ index then none else some (some _) : Option (Option Bytes)).bind _ = _
  split_ifs <;> rfl

/-- The finished rows are those of the plain list. -/
theorem Shows.finish (h : b.Shows r rows size) :
    b.finish.len = rows.length ∧ ∀ index, b.finish.row r index = rows[index]? := by
  unfold RowBuilder.finish
  rcases h.stored with ⟨hnone, hrows, -⟩ | ⟨disk, data, offsets, hsome, hdisk⟩
  · simp only [hnone]
    rw [hrows]
    exact ⟨rfl, fun index => rfl⟩
  · simp only [hsome]
    rw [hdisk.dataIs.finish, hdisk.offsetsIs.finish, h.count]
    refine ⟨rfl, fun index => ?_⟩
    rw [row_disk]
    split_ifs with hge
    · exact (List.getElem?_eq_none hge).symm
    · have hrow := List.getElem?_eq_getElem (show index < rows.length by omega)
      rw [hrow]
      exact hdisk.decode hrow

end RowBuilder

end Sunpack.Scratch
