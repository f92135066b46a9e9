import Sunpack.Scratch.Index

/-!
# Growing and putting

The index grows before more than half of its slots are used, and keeps its pairs. So an empty slot is
always left, and every call on the map ends with the answer of a plain map.
-/

namespace Sunpack.Scratch.DiskMap

open Sunpack.Lib

variable {V : Type} {e : Setting V} {m : DiskMap} {bytes : Bytes}
  {cell : Nat → Option (String × V)}

/-! ## Growing -/

theorem used_zero (cell : Nat → Option (String × V)) : used 0 cell = 0 := rfl

theorem not_content_zero (cell : Nat → Option (String × V)) (key : String) (value : V) :
    ¬ Content 0 cell key value := by
  rintro ⟨i, hi, -⟩
  omega

/-- The slots of the larger index after some rounds: it has the pairs of the slots moved so far. -/
structure Moved (e : Setting V) (m : DiskMap) (bytes : Bytes) (cell : Nat → Option (String × V))
    (n : Nat) (slots : Nat → Nat) (cell' : Nat → Option (String × V)) : Prop where
  table : Table e slots (m.capacity * 2) bytes cell'
  used : used (m.capacity * 2) cell' = used n cell
  content : ∀ key value, Content (m.capacity * 2) cell' key value ↔ Content n cell key value

theorem Moved.moveSlot {n : Nat} {slots : Nat → Nat} {cell' : Nat → Option (String × V)}
    (h : Table e m.slots m.capacity bytes cell) (hmoved : Moved e m bytes cell n slots cell')
    (hn : n < m.capacity) :
    ∃ slots' cell'', moveSlot m slots n = some slots' ∧
      Moved e m bytes cell (n + 1) slots' cell'' := by
  obtain ⟨htable, hused, hcontent⟩ := hmoved
  unfold DiskMap.moveSlot
  cases hcell : cell n with
  | none =>
    rw [if_pos ((h.eq_zero_iff hn).2 hcell)]
    refine ⟨slots, cell', rfl, htable, ?_, fun key value => ?_⟩
    · rw [used_succ, hcell, hused]
      rfl
    · rw [content_succ, hcontent, hcell]
      simp
  | some pair =>
    obtain ⟨hhash, offset, hslot, hrecorded⟩ := h.full n hn pair hcell
    have hle := used_le n cell
    have hnew : ∀ value, ¬ Content (m.capacity * 2) cell' pair.1 value := by
      intro value hvalue
      obtain ⟨i, hi, hother⟩ := (hcontent pair.1 value).1 hvalue
      have heq := h.probed.once i (by omega) n hn pair.1 value pair.2 hother hcell
      omega
    obtain ⟨d, hd, hfree, hempty, hbefore⟩ :=
      htable.emptySlot (by omega) (hash e pair.1)
    have hlt := walked_lt htable.pos (hash e pair.1) d
    have htakes := takes_empty hlt hempty hnew
    have hpair : Recorded e bytes offset (pair.1, pair.2) := hrecorded
    rw [if_neg (by omega), hhash, hfree, hslot]
    refine ⟨_, _, rfl, htable.setSlot hd htakes hbefore hpair, ?_, ?_⟩
    · have hone := @used_update _ _ _ cell' _ hlt (pair.1, pair.2)
      rw [hempty] at hone
      rw [used_succ, hcell, ← hused]
      exact hone
    · intro key value
      rw [htakes.content, content_succ, hcontent, hcell]
      constructor
      · rintro (⟨rfl, rfl⟩ | ⟨-, hold⟩)
        · exact .inr rfl
        · exact .inl hold
      · rintro (hold | heq)
        · refine .inr ⟨?_, hold⟩
          rintro rfl
          exact hnew value ((hcontent pair.1 value).2 hold)
        · obtain ⟨rfl, rfl⟩ := Prod.mk.inj (Option.some.inj heq)
          exact .inl ⟨rfl, rfl⟩

theorem Table.moveSlots (h : Table e m.slots m.capacity bytes cell) {n : Nat}
    (hn : n ≤ m.capacity) :
    ∃ slots cell', (List.range n).foldlM (moveSlot m) (fun _ => 0) = some slots ∧
      Moved e m bytes cell n slots cell' := by
  induction n with
  | zero =>
    obtain ⟨bits, hbits⟩ := h.bits
    refine ⟨fun _ => 0, fun _ => none, rfl, ?_, ?_, fun key value => ?_⟩
    · rw [hbits, ← Nat.pow_succ]
      exact table_empty bytes
    · rw [used_empty, used_zero]
    · refine ⟨?_, fun hnone => absurd hnone (not_content_zero cell key value)⟩
      rintro ⟨i, -, hnone⟩
      cases hnone
  | succ n ih =>
    obtain ⟨slots, cell', hfold, hmoved⟩ := ih (by omega)
    obtain ⟨slots', cell'', hmove, hmoved'⟩ := hmoved.moveSlot h (by omega)
    refine ⟨slots', cell'', ?_, hmoved'⟩
    rw [List.range_succ, List.foldlM_append, hfold]
    show moveSlot m slots n >>= pure = _
    rw [hmove]
    rfl

/-- The larger index has the same pairs. -/
theorem Table.grow (h : Table e m.slots m.capacity bytes cell) :
    ∃ slots cell', grow m = some { m with slots := slots, capacity := m.capacity * 2 } ∧
      Moved e m bytes cell m.capacity slots cell' := by
  obtain ⟨slots, cell', hfold, hmoved⟩ := h.moveSlots le_rfl
  refine ⟨slots, cell', ?_, hmoved⟩
  unfold DiskMap.grow
  rw [hfold]
  rfl

/-! ## The map -/

/-- A map whose index has a table, of which at most half is used. -/
structure Holds (e : Setting V) (m : DiskMap) (bytes : Bytes) (cell : Nat → Option (String × V)) :
    Prop where
  table : Table e m.slots m.capacity bytes cell
  count : used m.capacity cell = m.count
  half : 2 * m.count ≤ m.capacity
  two_le : 2 ≤ m.capacity
  data : m.data.Over bytes

theorem Holds.room (h : Holds e m bytes cell) : used m.capacity cell < m.capacity := by
  have hcount := h.count
  have hhalf := h.half
  have htwo := h.two_le
  omega

theorem Holds.grow (h : Holds e m bytes cell) :
    ∃ m' cell', grow m = some m' ∧ Holds e m' bytes cell' ∧ m'.count = m.count ∧
      m'.capacity = m.capacity * 2 ∧
      ∀ key value, Content m'.capacity cell' key value ↔ Content m.capacity cell key value := by
  have hhalf := h.half
  have htwo := h.two_le
  obtain ⟨slots, cell', hgrow, hmoved⟩ := h.table.grow
  refine ⟨_, cell', hgrow, ⟨hmoved.table, ?_, ?_, ?_, h.data⟩, rfl, rfl, hmoved.content⟩
  · rw [← h.count]
    exact hmoved.used
  · show 2 * m.count ≤ m.capacity * 2
    omega
  · show 2 ≤ m.capacity * 2
    omega

/-- A slot for the pair of a key, in an index with room for one more if the key is new. -/
structure Room (e : Setting V) (m : DiskMap) (bytes : Bytes) (cell : Nat → Option (String × V))
    (key : String) (d : Nat) (previous : Option V) : Prop where
  holds : Holds e m bytes cell
  found : Found e m.capacity cell key d previous
  room : previous = none → 2 * (m.count + 1) ≤ m.capacity

theorem Holds.makeRoom (h : Holds e m bytes cell) {key : String} {d : Nat} {previous : Option V}
    (hfound : Found e m.capacity cell key d previous) :
    ∃ m' cell' d', makeRoom m (walked m.capacity (hash e key) d) (hash e key) previous.isNone =
        some (walked m'.capacity (hash e key) d', m') ∧ Room e m' bytes cell' key d' previous ∧
      ∀ key value, Content m'.capacity cell' key value ↔ Content m.capacity cell key value := by
  have hhalf := h.half
  have htwo := h.two_le
  unfold DiskMap.makeRoom
  split_ifs with hgrow
  · rw [Bool.and_eq_true, decide_eq_true_eq, Option.isNone_iff_eq_none] at hgrow
    obtain ⟨hprevious, hfull⟩ := hgrow
    obtain ⟨m', cell', hgrown, hholds, hcount, hcapacity, hcontent⟩ := h.grow
    obtain ⟨d', hd', hfree, hempty, hbefore⟩ := hholds.table.emptySlot hholds.room (hash e key)
    have hnew : ∀ value, ¬ Content m'.capacity cell' key value := by
      intro value hvalue
      rw [hcontent, hfound.content, hprevious] at hvalue
      cases hvalue
    refine ⟨m', cell', d', ?_, ⟨hholds, ⟨hd', hbefore, ?_, ?_, fun value => ?_⟩, fun _ => ?_⟩,
      hcontent⟩
    · rw [hgrown, Option.bind_some, hfree]
      rfl
    · rw [hempty, hprevious]
      rfl
    · exact takes_empty (walked_lt hholds.table.pos _ d') hempty hnew
    · rw [hcontent, hfound.content]
    · omega
  · refine ⟨m, cell, d, rfl, ⟨h, hfound, fun hnone => ?_⟩, fun key value => Iff.rfl⟩
    have hcount : ¬ m.capacity / 2 ≤ m.count := by
      intro hfull
      apply hgrow
      rw [hnone, decide_eq_true hfull]
      rfl
    obtain ⟨bits, hbits⟩ := h.table.bits
    omega

/-- A record at the end of the spool, and its place in the slot. -/
theorem Room.append {key : String} {d : Nat} {previous : Option V}
    (h : Room e m bytes cell key d previous) {value : V}
    (hshort : (e.encode (key, value)).length < 2 ^ 32) :
    ∃ m' bytes' cell', append e m (walked m.capacity (hash e key) d) (hash e key) (key, value)
        previous.isNone = some m' ∧ Holds e m' bytes' cell' ∧
      ∀ key' value', Content m'.capacity cell' key' value' ↔
        key' = key ∧ value' = value ∨ key' ≠ key ∧ Content m.capacity cell key' value' := by
  obtain ⟨hholds, hfound, hroom⟩ := h
  have hend := hholds.data.seekEnd
  have hwritten := (hend.append e.memoryBytes (leBytes 4 (e.encode (key, value)).length)).append
    e.memoryBytes (e.encode (key, value))
  rw [List.append_assoc] at hwritten
  have hrecorded : Recorded e (bytes ++ record e (key, value)) bytes.length (key, value) :=
    ⟨standsAt_end bytes _, hshort⟩
  have htable := (hholds.table.append (record e (key, value))).setSlot hfound.lt hfound.takes
    hfound.before hrecorded
  have hused := @used_update _ _ _ cell _ hfound.takes.lt (key, value)
  rw [hfound.at_end, hholds.count] at hused
  have hhalf := hholds.half
  unfold DiskMap.append
  rw [if_pos hshort]
  refine ⟨_, bytes ++ record e (key, value), _, rfl, ⟨?_, ?_, ?_, hholds.two_le,
    Reader.over_of_end hwritten⟩, hfound.takes.content value⟩
  · show Table e (setSlot m.slots _ (m.data.seekEnd.spool.position + 1) _) m.capacity _ _
    rw [hend.position]
    exact htable
  · cases previous with
    | none => exact hused
    | some _ => exact Nat.succ.inj hused
  · cases previous with
    | none => exact hroom rfl
    | some _ => exact hhalf

/-! ## A plain map -/

/-- What a map on the disk answers is a plain map. -/
def Shows (e : Setting V) (m : DiskMap) (f : String → Option V) : Prop :=
  ∃ bytes cell, Holds e m bytes cell ∧
    ∀ key value, Content m.capacity cell key value ↔ f key = some value

theorem shows_new {bits : Nat} (hbits : 1 ≤ bits) : Shows e (new (2 ^ bits)) fun _ => none := by
  refine ⟨[], fun _ => none, ⟨table_empty [], used_empty _, Nat.zero_le _, ?_,
    Reader.over_empty⟩, fun key value => ?_⟩
  · show 2 ^ 1 ≤ 2 ^ bits
    exact Nat.pow_le_pow_right (by omega) hbits
  · constructor
    · rintro ⟨i, -, hnone⟩
      cases hnone
    · intro hnone
      cases hnone

theorem Shows.find {f : String → Option V} (h : Shows e m f) (key : String) :
    ∃ slot data, find e m key (hash e key) = some (slot, f key, data) ∧
      Shows e { m with data := data } f := by
  obtain ⟨bytes, cell, hholds, hcontent⟩ := h
  obtain ⟨d, previous, data, hfind, hover, hfound⟩ := hholds.table.find hholds.data hholds.room key
  have hprevious : previous = f key := by
    apply Option.ext
    intro value
    rw [← hcontent, hfound.content]
  rw [hprevious] at hfind
  exact ⟨_, data, hfind, bytes, cell,
    ⟨hholds.table, hholds.count, hholds.half, hholds.two_le, hover⟩, hcontent⟩

theorem Shows.get {f : String → Option V} (h : Shows e m f) (key : String) :
    ∃ m', get e m key = some (f key, m') ∧ Shows e m' f := by
  obtain ⟨slot, data, hfind, hshows⟩ := h.find key
  refine ⟨_, ?_, hshows⟩
  unfold DiskMap.get
  rw [hfind]
  rfl

theorem Shows.grow {f : String → Option V} (h : Shows e m f) :
    ∃ m', grow m = some m' ∧ m'.capacity = m.capacity * 2 ∧ Shows e m' f := by
  obtain ⟨bytes, cell, hholds, hcontent⟩ := h
  obtain ⟨m', cell', hgrow, hholds', -, hcapacity, hcontent'⟩ := hholds.grow
  refine ⟨m', hgrow, hcapacity, bytes, cell', hholds', fun key value => ?_⟩
  rw [hcontent', hcontent]

/-- Putting fails for too long a record only. -/
theorem Shows.put {f : String → Option V} (h : Shows e m f) (key : String) (value : V)
    (onlyNew : Bool) :
    put e m key value onlyNew = none ∧ 2 ^ 32 ≤ (e.encode (key, value)).length ∨
      ∃ m', put e m key value onlyNew = some ((f key).isNone, m') ∧
        Shows e m' (if onlyNew && (f key).isSome then f
          else Function.update f key (some value)) := by
  obtain ⟨bytes, cell, hholds, hcontent⟩ := h
  obtain ⟨d, previous, data, hfind, hover, hfound⟩ := hholds.table.find hholds.data hholds.room key
  have hprevious : previous = f key := by
    apply Option.ext
    intro value
    rw [← hcontent, hfound.content]
  subst hprevious
  have hholds' : Holds e { m with data := data } bytes cell :=
    ⟨hholds.table, hholds.count, hholds.half, hholds.two_le, hover⟩
  unfold DiskMap.put
  rw [hfind, Option.bind_some]
  simp only
  split_ifs with hkept
  · rw [Bool.and_eq_true] at hkept
    refine .inr ⟨_, ?_, bytes, cell, hholds', hcontent⟩
    rw [← Option.not_isSome, hkept.2]
    rfl
  · obtain ⟨m', cell', d', hroom, hat, hcontent'⟩ := hholds'.makeRoom hfound
    simp only at hroom
    rw [hroom, Option.bind_some]
    by_cases hshort : (e.encode (key, value)).length < 2 ^ 32
    · obtain ⟨m'', bytes', cell'', happend, hholds'', hcontent''⟩ := hat.append hshort
      refine .inr ⟨m'', ?_, bytes', cell'', hholds'', fun key' value' => ?_⟩
      · rw [happend]
        rfl
      · rw [hcontent'', hcontent', hcontent]
        by_cases hkey : key' = key
        · subst hkey
          rw [Function.update_self]
          simp [eq_comm]
        · rw [Function.update_of_ne hkey]
          simp [hkey]
    · refine .inl ⟨?_, by omega⟩
      unfold DiskMap.append
      rw [if_neg hshort]
      rfl

end Sunpack.Scratch.DiskMap
