import Sunpack.Scratch.Rows
import Sunpack.Scratch.SpillMap

/-!
# In memory or on the disk

The map that spills is a plain map and the rows are a plain list, after any calls and wherever they are.
-/

namespace Sunpack.Scratch

open Sunpack.Lib

variable {V T : Type}

namespace DiskMap

/-- The slots with a record. -/
def usedSlots (m : DiskMap) : Nat := (List.range m.capacity).countP fun i => m.slots (i * 2) ≠ 0

/-- What a map on the disk that is to be a plain map is like. -/
structure Sound (e : Setting V) (m : DiskMap) (f : Plain V) : Prop where
  half : 2 * m.usedSlots ≤ m.capacity
  reachable : ∀ i < m.capacity, m.slots (i * 2) ≠ 0 → ∃ key value data n,
    row e m.data (m.slots (i * 2) - 1) = some ((key, value), data) ∧ f key = some value ∧
      walked m.capacity (hash e key) n = i ∧
      ∀ j < n, m.slots (walked m.capacity (hash e key) j * 2) ≠ 0
  found : ∀ key, ∃ slot data, find e m key (hash e key) = some (slot, f key, data)
  grown : ∃ m', grow m = some m' ∧ m'.capacity = m.capacity * 2 ∧
    ∀ key, ∃ slot data, find e m' key (hash e key) = some (slot, f key, data)

variable {e : Setting V} {m : DiskMap} {bytes : Bytes} {cell : Nat → Option (String × V)}

theorem Table.used_eq (h : Table e m.slots m.capacity bytes cell) :
    used m.capacity cell = m.usedSlots := by
  unfold used usedSlots
  apply List.countP_congr
  intro i hi
  rw [decide_eq_true_eq, ne_eq, h.eq_zero_iff (List.mem_range.1 hi), Option.isSome_iff_ne_none]

theorem Shows.sound {f : Plain V} (h : m.Shows e f) : m.Sound e f := by
  refine ⟨?_, ?_, fun key => ?_, ?_⟩
  · obtain ⟨bytes, cell, hholds, -⟩ := h
    rw [← hholds.table.used_eq, hholds.count]
    exact hholds.half
  · intro i hi hslot
    obtain ⟨bytes, cell, hholds, hcontent⟩ := h
    have htable := hholds.table
    cases hcell : cell i with
    | none => exact absurd (htable.empty i hi hcell) hslot
    | some pair =>
      obtain ⟨-, offset, hplace, hrecorded⟩ := htable.full i hi pair hcell
      obtain ⟨data, hrow, -⟩ := row_spec hholds.data hrecorded
      obtain ⟨n, -, hwalked, hpath⟩ := htable.probed.reaches i hi pair.1 pair.2 hcell
      refine ⟨pair.1, pair.2, data, n, ?_, (hcontent _ _).1 ⟨i, hi, hcell⟩, hwalked, ?_⟩
      · rw [hplace]
        exact hrow
      · intro j hj
        rw [ne_eq, htable.eq_zero_iff (walked_lt htable.pos _ j)]
        exact hpath j hj
  · obtain ⟨slot, data, hfind, -⟩ := h.find key
    exact ⟨slot, data, hfind⟩
  · obtain ⟨m', hgrow, hcapacity, hshows⟩ := h.grow
    refine ⟨m', hgrow, hcapacity, fun key => ?_⟩
    obtain ⟨slot, data, hfind, -⟩ := hshows.find key
    exact ⟨slot, data, hfind⟩

end DiskMap

/-- After any calls the answers are those of a plain map, and the rows those of a plain list. An error
is too long a record, a row that is not there, or more bytes than a file can have. -/
theorem scratch_spec (e : Setting V) (r : RowSetting T) (calls : List (Call V))
    (rowCalls : List (RowCall T)) :
    (SpillMap.run e calls SpillMap.empty = none ∧
        (∃ call ∈ calls, ∃ pair, call.pair = some pair ∧ TooLong e pair) ∨
      ∃ m, SpillMap.run e calls SpillMap.empty = some (Plain.answers calls fun _ => none, m) ∧
        ∀ disk, m.disk = some disk → disk.Sound e (Plain.results calls fun _ => none)) ∧
    (2 ^ 64 ≤ bytesWritten r rowCalls [] ∨
      rowCalls.foldlM RowCall.onList [] = none ∧ RowBuilder.run r rowCalls RowBuilder.empty = none ∨
      ∃ rows b, rowCalls.foldlM RowCall.onList [] = some rows ∧
        RowBuilder.run r rowCalls RowBuilder.empty = some b ∧
        b.finish.len = rows.length ∧ ∀ index, b.finish.row r index = rows[index]?) := by
  constructor
  · have hempty : (SpillMap.empty : SpillMap V).Shows e fun _ => none := SpillMap.shows_empty
    rcases hempty.run calls with ⟨hnone, pair, hpair, hlong⟩ | ⟨m, hrun, hshows⟩
    · rcases hpair with hold | ⟨call, hmem, hpair⟩
      · cases hold
      · exact .inl ⟨hnone, call, hmem, pair, hpair, hlong⟩
    · refine .inr ⟨m, hrun, fun disk hdisk => ?_⟩
      cases hshows with
      | memory hnone _ =>
        rw [hnone] at hdisk
        cases hdisk
      | disk other hsome hother =>
        rw [hsome] at hdisk
        rw [← Option.some.inj hdisk]
        exact hother.sound
  · rcases Nat.lt_or_ge (bytesWritten r rowCalls []) (2 ^ 64) with hlt | hge
    · have hempty : (RowBuilder.empty : RowBuilder T).Shows r [] 0 := RowBuilder.shows_empty
      rcases hempty.run rowCalls (by omega) with hnone | ⟨rows, b, hlist, hrun, hshows⟩
      · exact .inr (.inl hnone)
      · obtain ⟨hlen, hrow⟩ := hshows.finish
        exact .inr (.inr ⟨rows, b, hlist, hrun, hlen, hrow⟩)
    · exact .inl hge

/-! ## A small setting -/

def decodePair : Bytes → Option (String × Bool)
  | [] => none
  | value :: key => (String.fromUTF8? ⟨key.toArray⟩).map fun key => (key, value == 0xC3)

/-- Nothing stays in memory, and all keys collide. -/
def boolSetting : Setting Bool where
  memoryBytes := 0
  valueBytes := 1
  encode pair := (if pair.2 then 0xC3 else 0xC2) :: pair.1.toByteArray.data.toList
  decode := decodePair
  decode_encode := by
    rintro ⟨key, value⟩
    have hkey : String.fromUTF8? ⟨key.toByteArray.data.toList.toArray⟩ = some key := by
      simp only [Array.toArray_toList, String.fromUTF8?, key.isValidUTF8, dite_true]
      rfl
    cases value <;> simp [decodePair, hkey]
  xxh64 _ := 0
  iterate d := d.entries
  iterate_perm _ := List.Perm.refl _

def boolRowSetting : RowSetting Bool where
  memoryBytes := 0
  encode value := [if value then 0xC3 else 0xC2]
  decode bytes := bytes.head?.map fun value => value == 0xC3
  decode_append value rest := by cases value <;> rfl
  readAhead bytes := bytes.length

/-- A value is replaced and not overwritten, and a spilled row is updated. -/
theorem scratch_spec_bool :
    (∃ m, SpillMap.run boolSetting [.insertNew "a" true, .put "b" true, .put "a" false,
        .insertNew "a" true, .get "a"] SpillMap.empty =
      some ([.inserted true, .done, .done, .inserted false, .value (some false)], m)) ∧
    ∃ b, RowBuilder.run boolRowSetting [.push false 1, .push false 1, .update 0 not]
        RowBuilder.empty = some b ∧
      b.finish.row boolRowSetting 0 = some true ∧ b.finish.row boolRowSetting 1 = some false := by
  obtain ⟨hmap, hrows⟩ := scratch_spec boolSetting boolRowSetting [.insertNew "a" true,
    .put "b" true, .put "a" false, .insertNew "a" true, .get "a"]
    [.push false 1, .push false 1, .update 0 not]
  have hshort : ∀ call ∈ ([.insertNew "a" true, .put "b" true, .put "a" false,
      .insertNew "a" true, .get "a"] : List (Call Bool)), ∀ pair, call.pair = some pair →
        ¬ TooLong boolSetting pair := by
    intro call hmem pair hpair
    unfold TooLong
    simp only [List.mem_cons, List.not_mem_nil, or_false] at hmem
    rcases hmem with rfl | rfl | rfl | rfl | rfl <;> cases hpair <;> decide
  constructor
  · rcases hmap with ⟨-, call, hmem, pair, hpair, hlong⟩ | ⟨m, hrun, -⟩
    · exact absurd hlong (hshort call hmem pair hpair)
    · exact ⟨m, hrun⟩
  · rcases hrows with hmany | ⟨hnone, -⟩ | ⟨rows, b, hlist, hrun, -, hrow⟩
    · exact absurd hmany (by decide)
    · cases hnone
    · cases hlist
      exact ⟨b, hrun, hrow 0, hrow 1⟩

end Sunpack.Scratch
