import Sunpack.DisplayStore.Record
import Sunpack.Lib.Dict
import Sunpack.Lib.SortedMap

/-!
# The live run

The live run shows one record for each identity. Its slots are used again, a removed record is
zeroed, and its files are written anew once too much of them is waste. A file is its content.
-/

namespace Sunpack.DisplayStore

open Sunpack.Lib

/-- The order of the rows: by time, and then by slot. -/
abbrev TimeKey := Int ×ₗ Nat

structure Live where
  run : Run
  data : Bytes
  index : List Entry
  rows : Dict String (Nat × Entry)
  time : OrderedMap TimeKey String
  free : List Nat
  bytes : Nat
  revision : Nat

/-- `new_live`: the first entry is the mark of the revision. -/
def newLive (name : RunName) : Live where
  run := ⟨name, 0, 0, 1, 1, true⟩
  data := []
  index := [Entry.zero]
  rows := ∅
  time := {}
  free := []
  bytes := 0
  revision := 0

namespace Live

/-- `set_revision` writes the first eight bytes of the index. -/
def setRevision (live : Live) (revision : Nat) : Live :=
  if live.revision ≠ revision then
    { live with
      index := live.index.modify 0 fun e => { e with stamp := revision }
      revision := revision }
  else live

def remove (live : Live) (id : String) : Option Live :=
  match live.rows.get? id with
  | none => some live
  | some row =>
    (recordSize live.data row.2).map fun size =>
      { live with
        rows := live.rows.erase id
        time := live.time.erase (toLex (row.2.stamp, row.1))
        index := hole Entry.zero row.1 (row.1 + 1) live.index
        data := hole 0 row.2.offset (row.2.offset + size) live.data
        bytes := live.bytes - size
        free := live.free ++ [row.1] }

variable {V : Type} (c : Codec V)

/-- The part of `update_live` that writes a row. -/
def put (live : Live) (id : String) (value : V) (ts : Int) : Option Live :=
  let slot := live.free.getLast?.getD live.run.count
  let count := max live.run.count (slot + 1)
  let out := writeRecord c ⟨live.data, live.index⟩ { live.run with count := slot } value ts
  (recordSize out.1.data out.2.2).map fun size =>
    { live with
      run := { out.2.1 with count := count }
      data := out.1.data
      index := out.1.index
      rows := live.rows.set id (slot, out.2.2)
      time := live.time.insert (toLex (ts, slot)) id
      free := live.free.dropLast
      bytes := live.bytes + size }

/-! ## Repacking -/

/-- One turn of the loop of `repack_live`: the record and its entry are copied behind the others. -/
def repackRow (old new : Live) (item : TimeKey × String) : Option Live := do
  let row ← old.rows.get? item.2
  let size ← recordSize old.data row.2
  let record := (old.data.drop row.2.offset).take size
  if record.length < size then none
  else
    let e := { row.2 with offset := new.data.length, slot := new.run.count % 2 ^ 32 }
    some { new with
      run := { new.run with count := new.run.count + 1 }
      data := new.data ++ record
      index := new.index ++ [e]
      time := new.time.insert (toLex ((ofLex item.1).1, new.run.count)) item.2
      rows := new.rows.set item.2 (new.run.count, e)
      bytes := new.bytes + size }

def repack (old : Live) (name : RunName) : Option Live :=
  (old.time.entries.foldlM (repackRow old) (newLive name)).map fun new =>
    { new with run := { new.run with first := old.run.first, last := old.run.last } }

/-- `finish_live` notes the times of the first and the last row. -/
def timed (live : Live) (first last : Int) : Live :=
  { live with run := { live.run with first := first, last := last } }

/-- Whether `finish_live` writes the files anew. -/
def wasteful (live : Live) : Bool :=
  max (4 * 1024 * 1024) (live.bytes * 2) < live.data.length ||
    max 256 (live.rows.entries.length * 4) < live.run.count

end Live

/-! ## The invariant -/

/-- What is shown for each identity. -/
abbrev Rows (V : Type) := String → Option (Int × V)

variable {V : Type}

def rowSize (c : Codec V) (shown : Rows V) (id : String) : Nat :=
  match shown id with
  | none => 0
  | some r => (recordBytes c r.2).length

/-- The live run shows these rows: each has a slot and a whole record of its own, the other slots are
free and zeroed, and the side tables agree. -/
structure Shows (c : Codec V) (live : Live) (shown : Rows V) : Prop where
  head : live.run.head = 1
  pos : 1 ≤ live.run.count
  length : live.index.length = live.run.count
  same : ∀ id, live.rows.get? id = none ↔ shown id = none
  whole : ∀ id slot e r, live.rows.get? id = some (slot, e) → shown id = some r →
    live.index[slot]? = some e ∧ Whole c live.data e r.1 r.2
  slots : ∀ slot, 1 ≤ slot ∧ slot < live.run.count ↔
    (∃ id e, live.rows.get? id = some (slot, e)) ∨ slot ∈ live.free
  once : ∀ id id' slot e e', live.rows.get? id = some (slot, e) →
    live.rows.get? id' = some (slot, e') → id = id'
  unused : ∀ id slot e, live.rows.get? id = some (slot, e) → slot ∉ live.free
  nodup : live.free.Nodup
  zero : ∀ slot ∈ live.free, live.index[slot]? = some Entry.zero
  apart : ∀ id id' slot slot' e e', live.rows.get? id = some (slot, e) →
    live.rows.get? id' = some (slot', e') → id ≠ id' →
      e.offset + rowSize c shown id ≤ e'.offset ∨ e'.offset + rowSize c shown id' ≤ e.offset
  time : ∀ ts slot id, live.time.get (toLex (ts, slot)) = some id ↔
    ∃ e, live.rows.get? id = some (slot, e) ∧ e.stamp = ts
  bytes : live.bytes = (live.rows.keys.map (rowSize c shown)).sum

variable {c : Codec V} {live : Live} {shown : Rows V}

theorem shows_newLive (name : RunName) : Shows c (newLive name) fun _ => none where
  head := rfl
  pos := le_rfl
  length := rfl
  same id := ⟨fun _ => rfl, fun _ => rfl⟩
  whole id slot e r h := by cases h
  slots slot := by
    constructor
    · rintro ⟨h1, h2⟩
      exact absurd (show slot < 1 from h2) (by omega)
    · rintro (⟨id, e, h⟩ | h)
      · cases h
      · cases h
  once id id' slot e e' h := by cases h
  unused id slot e h := by cases h
  nodup := .nil
  zero slot h := by cases h
  apart id id' slot slot' e e' h := by cases h
  time ts slot id := by
    constructor
    · intro h
      cases h
    · rintro ⟨e, h, -⟩
      cases h
  bytes := rfl

/-- The run's own times and the revision do not matter. -/
theorem Shows.congr (h : Shows c live shown) {live' : Live} (hhead : live'.run.head = live.run.head)
    (hcount : live'.run.count = live.run.count) (hdata : live'.data = live.data)
    (hlength : live'.index.length = live.index.length)
    (hindex : ∀ slot, 1 ≤ slot → live'.index[slot]? = live.index[slot]?)
    (hrows : live'.rows = live.rows) (htime : live'.time = live.time)
    (hfree : live'.free = live.free) (hbytes : live'.bytes = live.bytes) :
    Shows c live' shown := by
  have hpos : ∀ id slot e, live.rows.get? id = some (slot, e) → 1 ≤ slot :=
    fun id slot e hrow => ((h.slots slot).2 (.inl ⟨id, e, hrow⟩)).1
  constructor
  · exact hhead.trans h.head
  · exact hcount ▸ h.pos
  · rw [hlength, h.length, hcount]
  · rw [hrows]
    exact h.same
  · rw [hrows, hdata]
    intro id slot e r hrow hr
    rw [hindex slot (hpos id slot e hrow)]
    exact h.whole id slot e r hrow hr
  · rw [hrows, hcount, hfree]
    exact h.slots
  · rw [hrows]
    exact h.once
  · rw [hrows, hfree]
    exact h.unused
  · rw [hfree]
    exact h.nodup
  · rw [hfree]
    intro slot hslot
    rw [hindex slot ((h.slots slot).2 (.inr hslot)).1]
    exact h.zero slot hslot
  · rw [hrows]
    exact h.apart
  · rw [hrows, htime]
    exact h.time
  · rw [hrows, hbytes]
    exact h.bytes

theorem Shows.setRevision (h : Shows c live shown) (revision : Nat) :
    Shows c (live.setRevision revision) shown := by
  unfold Live.setRevision
  split_ifs
  · refine h.congr rfl rfl rfl (List.length_modify _ _ _) (fun slot hslot => ?_) rfl rfl rfl rfl
    exact List.getElem?_modify_ne _ _ (by omega)
  · exact h

/-! ## Removing -/

theorem rowSize_update_of_ne {id id' : String} (h : id' ≠ id) (row : Option (Int × V)) :
    rowSize c (Function.update shown id row) id' = rowSize c shown id' := by
  unfold rowSize
  rw [Function.update_of_ne h]

theorem rowSize_of_some {id : String} {r : Int × V} (h : shown id = some r) :
    rowSize c shown id = (recordBytes c r.2).length := by
  unfold rowSize
  rw [h]

theorem sum_rowSize_congr {ids : List String} {id : String} (h : id ∉ ids)
    (row : Option (Int × V)) : (ids.map (rowSize c (Function.update shown id row))).sum =
      (ids.map (rowSize c shown)).sum := by
  congr 1
  apply List.map_congr_left
  intro id' hid'
  apply rowSize_update_of_ne
  rintro rfl
  exact h hid'

theorem keys_erase {K W : Type} [DecidableEq K] {d : Dict K W} {k : K} {v : W}
    (h : d.get? k = some v) : d.keys.Perm (k :: (d.erase k).keys) :=
  (Dict.entries_perm h).map Prod.fst

theorem Shows.exists_shown (h : Shows c live shown) {id : String} {row : Nat × Entry}
    (hrow : live.rows.get? id = some row) : ∃ r, shown id = some r := by
  cases hr : shown id with
  | some r => exact ⟨r, rfl⟩
  | none =>
    rw [(h.same id).2 hr] at hrow
    cases hrow

theorem Shows.recordSize (h : Shows c live shown) {id : String} {slot : Nat} {e : Entry}
    (hrow : live.rows.get? id = some (slot, e)) :
    recordSize live.data e = some (rowSize c shown id) := by
  obtain ⟨r, hr⟩ := h.exists_shown hrow
  rw [rowSize_of_some hr]
  exact (h.whole id slot e r hrow hr).2.recordSize

theorem Shows.remove (h : Shows c live shown) (id : String) :
    ∃ live', live.remove id = some live' ∧ live'.run = live.run ∧
      Shows c live' (Function.update shown id none) := by
  unfold Live.remove
  cases hrow : live.rows.get? id with
  | none =>
    refine ⟨live, rfl, rfl, ?_⟩
    rw [← (h.same id).1 hrow, Function.update_eq_self]
    exact h
  | some row =>
    obtain ⟨slot, e⟩ := row
    have hsize := h.recordSize hrow
    have hrange := (h.slots slot).2 (.inl ⟨id, e, hrow⟩)
    have hlength := h.length
    simp only [hsize, Option.map_some]
    refine ⟨_, rfl, rfl, ?_⟩
    have hother : ∀ id' row, (live.rows.erase id).get? id' = some row →
        id' ≠ id ∧ live.rows.get? id' = some row := by
      intro id' row hrow'
      rw [Dict.get?_erase] at hrow'
      split_ifs at hrow' with heq
      exact ⟨heq, hrow'⟩
    have hslot : ∀ id' slot' e', id' ≠ id → live.rows.get? id' = some (slot', e') → slot' ≠ slot := by
      rintro id' slot' e' hne hrow' rfl
      exact hne (h.once id' id slot' e' e hrow' hrow)
    constructor
    · exact h.head
    · exact h.pos
    · rw [length_hole]
      exact h.length
    · intro id'
      rw [Dict.get?_erase]
      by_cases heq : id' = id
      · rw [if_pos heq, heq, Function.update_self]
        exact ⟨fun _ => rfl, fun _ => rfl⟩
      · rw [if_neg heq, Function.update_of_ne heq]
        exact h.same id'
    · intro id' slot' e' r hrow' hr
      obtain ⟨hne, hrow'⟩ := hother _ _ hrow'
      rw [Function.update_of_ne hne] at hr
      obtain ⟨hindex, hwhole⟩ := h.whole id' slot' e' r hrow' hr
      have hdiff := hslot id' slot' e' hne hrow'
      have hapart := h.apart id' id slot' slot e' e hrow' hrow hne
      rw [rowSize_of_some hr] at hapart
      refine ⟨?_, hwhole.hole (by omega)⟩
      rw [getElem?_hole_of_not (by omega)]
      exact hindex
    · intro slot'
      rw [h.slots slot', List.mem_append, List.mem_singleton]
      constructor
      · rintro (⟨id', e', hrow'⟩ | hfree)
        · by_cases heq : id' = id
          · subst heq
            rw [hrow] at hrow'
            obtain ⟨rfl, -⟩ := Prod.mk.inj (Option.some.inj hrow')
            exact .inr (.inr rfl)
          · exact .inl ⟨id', e', by rw [Dict.get?_erase_of_ne _ heq, hrow']⟩
        · exact .inr (.inl hfree)
      · rintro (⟨id', e', hrow'⟩ | hfree | rfl)
        · exact .inl ⟨id', e', (hother _ _ hrow').2⟩
        · exact .inr hfree
        · exact .inl ⟨id, e, hrow⟩
    · intro id' id'' slot' e' e'' h' h''
      exact h.once id' id'' slot' e' e'' (hother _ _ h').2 (hother _ _ h'').2
    · intro id' slot' e' hrow' hfree
      obtain ⟨hne, hrow'⟩ := hother _ _ hrow'
      rcases List.mem_append.1 hfree with hfree | hfree
      · exact h.unused id' slot' e' hrow' hfree
      · exact hslot id' slot' e' hne hrow' (List.mem_singleton.1 hfree)
    · rw [List.nodup_append]
      refine ⟨h.nodup, List.nodup_singleton slot, fun a ha b hb heq => ?_⟩
      obtain rfl := List.mem_singleton.1 hb
      exact h.unused id b e hrow (heq ▸ ha)
    · intro slot' hfree
      rcases List.mem_append.1 hfree with hold | hnew
      · have hdiff : slot' ≠ slot := by
          rintro rfl
          exact h.unused id slot' e hrow hold
        rw [getElem?_hole_of_not (by omega)]
        exact h.zero slot' hold
      · obtain rfl := List.mem_singleton.1 hnew
        exact getElem?_hole_of_mem le_rfl (by omega) (by omega)
    · intro id' id'' slot' slot'' e' e'' h' h'' hne
      obtain ⟨hne', h'⟩ := hother _ _ h'
      obtain ⟨hne'', h''⟩ := hother _ _ h''
      rw [rowSize_update_of_ne hne', rowSize_update_of_ne hne'']
      exact h.apart id' id'' slot' slot'' e' e'' h' h'' hne
    · intro ts slot' id'
      rw [OrderedMap.get_erase]
      constructor
      · intro hget
        split_ifs at hget with hkey
        obtain ⟨e', hrow', hstamp⟩ := (h.time ts slot' id').1 hget
        refine ⟨e', ?_, hstamp⟩
        rw [Dict.get?_erase_of_ne _, hrow']
        rintro rfl
        rw [hrow] at hrow'
        obtain ⟨rfl, rfl⟩ := Prod.mk.inj (Option.some.inj hrow')
        exact hkey (by rw [hstamp])
      · rintro ⟨e', hrow', hstamp⟩
        obtain ⟨hne, hrow'⟩ := hother _ _ hrow'
        rw [if_neg]
        · exact (h.time ts slot' id').2 ⟨e', hrow', hstamp⟩
        · intro hkey
          have hpair := Prod.mk.inj (toLex.injective hkey)
          exact hslot id' slot' e' hne hrow' hpair.2
    · have hkeys := keys_erase hrow
      have hsum := (hkeys.map (rowSize c shown)).sum_eq
      have hnot : id ∉ (live.rows.erase id).keys := by
        rw [← Dict.get?_eq_none]
        exact Dict.get?_erase_self _ _
      show live.bytes - rowSize c shown id = _
      rw [sum_rowSize_congr hnot, h.bytes, hsum, List.map_cons, List.sum_cons,
        Nat.add_sub_cancel_left]

/-! ## Adding -/

/-- The live run with one more record, in this slot. -/
def Live.added (live : Live) (id : String) (slot : Nat) (free : List Nat) (e : Entry)
    (record : Bytes) : Live :=
  { live with
    run := { live.run with count := max live.run.count (slot + 1) }
    data := live.data ++ record
    index := writeSlot live.index slot e
    rows := live.rows.set id (slot, e)
    time := live.time.insert (toLex (e.stamp, slot)) id
    free := free
    bytes := live.bytes + record.length }

/-- A slot behind the others, or the free one that is taken next. -/
def TakesSlot (live : Live) (slot : Nat) (free : List Nat) : Prop :=
  slot = live.run.count ∧ free = live.free ∨ live.free = free ++ [slot]

theorem Shows.takes (h : Shows c live shown) {slot : Nat} {free : List Nat}
    (hslot : TakesSlot live slot free) :
    1 ≤ slot ∧ slot ≤ live.run.count ∧ (∀ id e, live.rows.get? id ≠ some (slot, e)) ∧
      slot ∉ free ∧ ∀ k, k ∈ live.free ∨ k = slot ↔ k ∈ free ∨ k = slot := by
  rcases hslot with ⟨rfl, rfl⟩ | hfree
  · refine ⟨h.pos, le_rfl, fun id e hrow => ?_, fun hmem => ?_, fun k => Iff.rfl⟩
    · have := ((h.slots _).2 (.inl ⟨id, e, hrow⟩)).2
      omega
    · have := ((h.slots _).2 (.inr hmem)).2
      omega
  · have hmem : slot ∈ live.free := by
      rw [hfree]
      exact List.mem_append_right _ (List.mem_singleton_self _)
    obtain ⟨hpos, hlt⟩ := (h.slots slot).2 (.inr hmem)
    have hnodup := h.nodup
    rw [hfree, List.nodup_append] at hnodup
    refine ⟨hpos, by omega, fun id e hrow => h.unused id slot e hrow hmem, fun hin => ?_, fun k => ?_⟩
    · exact hnodup.2.2 slot hin slot (List.mem_singleton_self _) rfl
    · rw [hfree, List.mem_append, List.mem_singleton, or_assoc, or_self]

theorem Shows.added (h : Shows c live shown) {id : String} (hnew : shown id = none) {slot : Nat}
    {free : List Nat} (hslot : TakesSlot live slot free) (value : V) (ts : Int) (n : Nat) :
    Shows c (live.added id slot free (recordEntry c value ts live.data.length n)
      (recordBytes c value)) (Function.update shown id (some (ts, value))) := by
  obtain ⟨hpos, hle, hunused, hnotfree, hmem⟩ := h.takes hslot
  have hlength := h.length
  have hnone := (h.same id).2 hnew
  have hkeys : id ∉ live.rows.keys := Dict.get?_eq_none.1 hnone
  have hsize : rowSize c (Function.update shown id (some (ts, value))) id =
      (recordBytes c value).length := rowSize_of_some (Function.update_self _ _ _)
  have hother : ∀ id' slot' e', id' ≠ id → live.rows.get? id' = some (slot', e') → slot' ≠ slot := by
    rintro id' slot' e' - hrow rfl
    exact hunused id' e' hrow
  have hend : ∀ id' slot' e', live.rows.get? id' = some (slot', e') →
      e'.offset + rowSize c shown id' ≤ live.data.length := by
    intro id' slot' e' hrow
    obtain ⟨r, hr⟩ := h.exists_shown hrow
    rw [rowSize_of_some hr]
    exact (h.whole id' slot' e' r hrow hr).2.le_length
  have hget : ∀ id' row, (live.rows.set id (slot, recordEntry c value ts live.data.length n)).get? id'
      = some row → id' = id ∧ row = (slot, recordEntry c value ts live.data.length n) ∨
        id' ≠ id ∧ live.rows.get? id' = some row := by
    intro id' row hrow
    rw [Dict.get?_set] at hrow
    split_ifs at hrow with heq
    · exact .inl ⟨heq, (Option.some.inj hrow).symm⟩
    · exact .inr ⟨heq, hrow⟩
  constructor
  · exact h.head
  · exact le_trans h.pos (le_max_left _ _)
  · show (writeSlot live.index slot _).length = max live.run.count (slot + 1)
    rw [length_writeSlot (by omega), hlength]
  · intro id'
    show (live.rows.set id _).get? id' = none ↔ _
    rw [Dict.get?_set]
    by_cases heq : id' = id
    · rw [if_pos heq, heq, Function.update_self]
      exact ⟨fun h => (by cases h), fun h => (by cases h)⟩
    · rw [if_neg heq, Function.update_of_ne heq]
      exact h.same id'
  · intro id' slot' e' r hrow hr
    show (writeSlot live.index slot _)[slot']? = some e' ∧ _
    rw [getElem?_writeSlot (by omega)]
    rcases hget _ _ hrow with ⟨rfl, hpair⟩ | ⟨hne, hrow⟩
    · obtain ⟨rfl, rfl⟩ := Prod.mk.inj hpair
      rw [Function.update_self] at hr
      obtain rfl := Option.some.inj hr
      rw [if_pos rfl]
      exact ⟨rfl, whole_written live.data value ts n⟩
    · rw [Function.update_of_ne hne] at hr
      obtain ⟨hindex, hwhole⟩ := h.whole id' slot' e' r hrow hr
      rw [if_neg (hother id' slot' e' hne hrow)]
      exact ⟨hindex, hwhole.append _⟩
  · intro k
    show 1 ≤ k ∧ k < max live.run.count (slot + 1) ↔ (∃ id' e', (live.rows.set id _).get? id' = _) ∨
      k ∈ free
    have hk := h.slots k
    have hset : (∃ id' e', (live.rows.set id (slot, recordEntry c value ts live.data.length n)).get? id'
        = some (k, e')) ↔ (∃ id' e', live.rows.get? id' = some (k, e')) ∨ k = slot := by
      constructor
      · rintro ⟨id', e', hrow⟩
        rcases hget _ _ hrow with ⟨-, hpair⟩ | ⟨-, hrow⟩
        · exact .inr (Prod.mk.inj hpair).1
        · exact .inl ⟨id', e', hrow⟩
      · rintro (⟨id', e', hrow⟩ | rfl)
        · refine ⟨id', e', ?_⟩
          rw [Dict.get?_set_of_ne, hrow]
          rintro rfl
          rw [hnone] at hrow
          cases hrow
        · exact ⟨id, _, Dict.get?_set_self _ _ _⟩
    rw [hset, or_assoc, or_comm (a := k = slot), ← hmem k, ← or_assoc, ← hk]
    omega
  · intro id' id'' k e' e'' h' h''
    rcases hget _ _ h' with ⟨rfl, hpair⟩ | ⟨hne, hold⟩
    · obtain ⟨rfl, -⟩ := Prod.mk.inj hpair
      rcases hget _ _ h'' with ⟨rfl, -⟩ | ⟨-, hold⟩
      · rfl
      · exact absurd hold (hunused id'' e'')
    · rcases hget _ _ h'' with ⟨rfl, hpair⟩ | ⟨-, hold'⟩
      · obtain ⟨rfl, -⟩ := Prod.mk.inj hpair
        exact absurd hold (hunused id' e')
      · exact h.once id' id'' k e' e'' hold hold'
  · intro id' k e' hrow
    show k ∉ free
    rcases hget _ _ hrow with ⟨-, hpair⟩ | ⟨hne, hold⟩
    · obtain ⟨rfl, -⟩ := Prod.mk.inj hpair
      exact hnotfree
    · intro hin
      rcases (hmem k).2 (.inl hin) with hfree | rfl
      · exact h.unused id' k e' hold hfree
      · exact hunused id' e' hold
  · show free.Nodup
    rcases hslot with ⟨-, rfl⟩ | hfree
    · exact h.nodup
    · have hnodup := h.nodup
      rw [hfree, List.nodup_append] at hnodup
      exact hnodup.1
  · intro k hin
    show (writeSlot live.index slot _)[k]? = _
    have hk : k ≠ slot := fun heq => hnotfree (heq ▸ hin)
    rw [getElem?_writeSlot (by omega), if_neg hk]
    exact h.zero k (((hmem k).2 (.inl hin)).resolve_right hk)
  · intro id' id'' k k' e' e'' h' h'' hne
    rcases hget _ _ h' with ⟨rfl, hpair⟩ | ⟨hne', hold⟩
    · obtain ⟨-, rfl⟩ := Prod.mk.inj hpair
      rcases hget _ _ h'' with ⟨rfl, -⟩ | ⟨hne'', hold⟩
      · exact absurd rfl hne
      · rw [rowSize_update_of_ne hne'']
        exact .inr (hend id'' k' e'' hold)
    · rcases hget _ _ h'' with ⟨rfl, hpair⟩ | ⟨hne'', hold'⟩
      · obtain ⟨-, rfl⟩ := Prod.mk.inj hpair
        rw [rowSize_update_of_ne hne']
        exact .inl (hend id' k e' hold)
      · rw [rowSize_update_of_ne hne', rowSize_update_of_ne hne'']
        exact h.apart id' id'' k k' e' e'' hold hold' hne
  · intro ts' k id'
    show (live.time.insert (toLex (ts, slot)) id).get (toLex (ts', k)) = some id' ↔ _
    rw [OrderedMap.get_insert]
    constructor
    · intro hkey
      split_ifs at hkey with heq
      · obtain ⟨rfl, rfl⟩ := Prod.mk.inj (toLex.injective heq)
        obtain rfl := Option.some.inj hkey
        exact ⟨_, Dict.get?_set_self _ _ _, rfl⟩
      · obtain ⟨e', hrow, hstamp⟩ := (h.time ts' k id').1 hkey
        refine ⟨e', ?_, hstamp⟩
        show (live.rows.set id _).get? id' = _
        rw [Dict.get?_set_of_ne, hrow]
        rintro rfl
        rw [hnone] at hrow
        cases hrow
    · rintro ⟨e', hrow, hstamp⟩
      rcases hget _ _ hrow with ⟨rfl, hpair⟩ | ⟨hne, hrow⟩
      · obtain ⟨rfl, rfl⟩ := Prod.mk.inj hpair
        rw [if_pos]
        rw [← hstamp]
        rfl
      · rw [if_neg]
        · exact (h.time ts' k id').2 ⟨e', hrow, hstamp⟩
        · intro heq
          exact hother id' k e' hne hrow (Prod.mk.inj (toLex.injective heq)).2
  · show live.bytes + (recordBytes c value).length = ((live.rows.set id _).keys.map _).sum
    rw [Dict.keys_set_new hnone, List.map_append, List.sum_append, List.map_singleton,
      List.sum_singleton, hsize, sum_rowSize_congr hkeys, h.bytes]

/-- A row for an identity that has none. -/
theorem Shows.put (h : Shows c live shown) {id : String} (hnew : shown id = none) (value : V)
    (ts : Int) : ∃ live', live.put c id value ts = some live' ∧ live'.run.name = live.run.name ∧
      Shows c live' (Function.update shown id (some (ts, value))) := by
  have hslot : TakesSlot live (live.free.getLast?.getD live.run.count) live.free.dropLast := by
    cases hfree : live.free.getLast? with
    | none =>
      rw [List.getLast?_eq_none_iff] at hfree
      rw [TakesSlot, hfree]
      exact .inl ⟨rfl, rfl⟩
    | some slot =>
      obtain ⟨front, hfront⟩ := List.getLast?_eq_some_iff.1 hfree
      rw [TakesSlot, hfront, List.dropLast_concat]
      exact .inr rfl
  have hadded := h.added hnew hslot value ts (live.free.getLast?.getD live.run.count)
  have hsize := (@whole_written V c live.data value ts
    (live.free.getLast?.getD live.run.count)).recordSize
  unfold Live.put writeRecord
  simp only [hsize, Option.map_some]
  exact ⟨_, rfl, rfl, hadded.congr rfl rfl rfl rfl (fun _ _ => rfl) rfl rfl rfl rfl⟩

/-! ## The repacked run -/

/-- One turn of the loop copies one row. -/
theorem Shows.repackRow {old new : Live} {part : Rows V} (hold : Shows c old shown)
    (h : Shows c new part) {item : TimeKey × String} (hitem : item ∈ old.time.entries)
    (hpart : part item.2 = none) :
    ∃ new', Live.repackRow old new item = some new' ∧ new'.run.name = new.run.name ∧
      Shows c new' (Function.update part item.2 (shown item.2)) := by
  obtain ⟨key, id⟩ := item
  obtain ⟨e, hrow, hstamp⟩ := (hold.time (ofLex key).1 (ofLex key).2 id).1
    (OrderedMap.get_eq_some.2 hitem)
  obtain ⟨⟨ts, value⟩, hr⟩ := hold.exists_shown hrow
  obtain ⟨-, hwhole⟩ := hold.whole id _ e _ hrow hr
  obtain ⟨n, he⟩ := hwhole.entry
  have hrecord := hwhole.stands.take_drop
  have hts : (ofLex key).1 = ts := hstamp.symm.trans hwhole.stamp
  have hentry : ({ e with offset := new.data.length, slot := new.run.count % 2 ^ 32 } : Entry) =
      recordEntry c value ts new.data.length new.run.count := by
    rw [he]
    rfl
  have hadded := h.added hpart (.inl ⟨rfl, rfl⟩) value ts new.run.count
  have hmax : max new.run.count (new.run.count + 1) = new.run.count + 1 := by omega
  unfold Live.added at hadded
  rw [hmax, writeSlot_end h.length] at hadded
  refine ⟨_, ?_, ?_, hr ▸ hadded⟩
  · unfold Live.repackRow
    simp only [hrow, Option.bind_eq_bind, Option.bind_some, hwhole.recordSize, hrecord, hts, hentry]
    rw [if_neg (by omega)]
    rfl
  · rfl

theorem Shows.repackRows {old new : Live} {part : Rows V} (hold : Shows c old shown)
    (h : Shows c new part) {items : List (TimeKey × String)}
    (hitems : ∀ item ∈ items, item ∈ old.time.entries) (hnodup : (items.map Prod.snd).Nodup)
    (hpart : ∀ id ∈ items.map Prod.snd, part id = none) :
    ∃ new', items.foldlM (Live.repackRow old) new = some new' ∧ new'.run.name = new.run.name ∧
      Shows c new' fun id => if id ∈ items.map Prod.snd then shown id else part id := by
  induction items generalizing new part with
  | nil => exact ⟨new, rfl, rfl, by simpa using h⟩
  | cons item items ih =>
    rw [List.map_cons, List.nodup_cons] at hnodup
    obtain ⟨new₁, hnew₁, hname₁, h₁⟩ := hold.repackRow h (hitems item List.mem_cons_self)
      (hpart _ List.mem_cons_self)
    have hpart₁ : ∀ id ∈ items.map Prod.snd, Function.update part item.2 (shown item.2) id = none := by
      intro id hid
      rw [Function.update_of_ne]
      · exact hpart id (List.mem_cons_of_mem _ hid)
      · rintro rfl
        exact hnodup.1 hid
    obtain ⟨new', hnew', hname', h'⟩ := ih h₁
      (fun item hitem => hitems item (List.mem_cons_of_mem _ hitem)) hnodup.2 hpart₁
    rw [List.foldlM_cons, hnew₁]
    refine ⟨new', hnew', hname'.trans hname₁, ?_⟩
    have hshown : (fun id => if id ∈ (item :: items).map Prod.snd then shown id else part id) =
        fun id => if id ∈ items.map Prod.snd then shown id
          else Function.update part item.2 (shown item.2) id := by
      funext id
      have hmem : id ∈ (item :: items).map Prod.snd ↔ id = item.2 ∨ id ∈ items.map Prod.snd := by
        rw [List.map_cons, List.mem_cons]
      by_cases hin : id ∈ items.map Prod.snd
      · rw [if_pos (hmem.2 (.inr hin)), if_pos hin]
      · rw [if_neg hin]
        by_cases heq : id = item.2
        · rw [if_pos (hmem.2 (.inl heq)), heq, Function.update_self]
        · have hnot : id ∉ (item :: items).map Prod.snd := fun h => (hmem.1 h).elim heq hin
          rw [if_neg hnot, Function.update_of_ne heq]
    rw [hshown]
    exact h'

/-- The identities in the order of the rows occur once each. -/
theorem Shows.time_nodup (h : Shows c live shown) : (live.time.entries.map Prod.snd).Nodup := by
  rw [List.nodup_map_iff_inj_on (sorted_nodup live.time.sorted)]
  rintro ⟨key, id⟩ hitem ⟨key', id'⟩ hitem' heq
  obtain rfl : id = id' := heq
  obtain ⟨e, hrow, hstamp⟩ := (h.time (ofLex key).1 (ofLex key).2 id).1
    (OrderedMap.get_eq_some.2 hitem)
  obtain ⟨e', hrow', hstamp'⟩ := (h.time (ofLex key').1 (ofLex key').2 id).1
    (OrderedMap.get_eq_some.2 hitem')
  rw [hrow] at hrow'
  obtain ⟨hslot, rfl⟩ := Prod.mk.inj (Option.some.inj hrow')
  have hkey : key = key' := by
    apply ofLex.injective
    exact Prod.ext (hstamp.symm.trans hstamp') hslot
  rw [hkey]

theorem Shows.mem_time (h : Shows c live shown) {id : String} {r : Int × V} (hr : shown id = some r) :
    ∃ slot, (toLex (r.1, slot), id) ∈ live.time.entries := by
  cases hrow : live.rows.get? id with
  | none =>
    rw [(h.same id).1 hrow] at hr
    cases hr
  | some row =>
    obtain ⟨slot, e⟩ := row
    have hstamp := (h.whole id slot e r hrow hr).2.stamp
    exact ⟨slot, OrderedMap.get_eq_some.1 ((h.time r.1 slot id).2 ⟨e, hrow, hstamp⟩)⟩

theorem Shows.of_mem_time (h : Shows c live shown) {item : TimeKey × String}
    (hitem : item ∈ live.time.entries) : ∃ value, shown item.2 = some ((ofLex item.1).1, value) := by
  obtain ⟨e, hrow, hstamp⟩ := (h.time (ofLex item.1).1 (ofLex item.1).2 item.2).1
    (OrderedMap.get_eq_some.2 hitem)
  obtain ⟨⟨ts, value⟩, hr⟩ := h.exists_shown hrow
  have hts := (h.whole _ _ e _ hrow hr).2.stamp
  exact ⟨value, by rw [hr, ← hstamp, hts]⟩

/-- Repacking changes nothing that is shown. -/
theorem Shows.repack (h : Shows c live shown) (name : RunName) :
    ∃ new, live.repack name = some new ∧ new.run.name = name ∧ new.run.first = live.run.first ∧
      new.run.last = live.run.last ∧ Shows c new shown := by
  obtain ⟨new, hnew, hname, hshows⟩ := h.repackRows (@shows_newLive V c name)
    (fun item hitem => hitem) h.time_nodup (fun _ _ => rfl)
  have hall : (fun id => if id ∈ live.time.entries.map Prod.snd then shown id else none) = shown := by
    funext id
    split_ifs with hin
    · rfl
    · cases hr : shown id with
      | none => rfl
      | some r =>
        obtain ⟨slot, hmem⟩ := h.mem_time hr
        exact absurd (List.mem_map_of_mem hmem) hin
  rw [hall] at hshows
  unfold Live.repack
  rw [hnew, Option.map_some]
  exact ⟨_, rfl, hname, rfl, rfl, hshows.congr rfl rfl rfl rfl (fun _ _ => rfl) rfl rfl rfl rfl⟩

end Sunpack.DisplayStore
