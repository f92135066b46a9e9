import Sunpack.Scratch.DiskMap

/-!
# The index

Behind the slots stands a table of pairs: a slot is empty exactly where the table is, and has the place
and the hash of its pair otherwise. Searching, growing and putting are what they are for the table.
-/

namespace Sunpack.Scratch.DiskMap

open Sunpack.Lib

variable {V : Type} {e : Setting V}

/-- What the slot of a pair has. -/
structure Backed (e : Setting V) (slots : Nat → Nat) (bytes : Bytes) (i : Nat)
    (pair : String × V) : Prop where
  hash : slots (i * 2 + 1) = hash e pair.1
  recorded : ∃ offset, slots (i * 2) = offset + 1 ∧ Recorded e bytes offset pair

theorem Backed.append {slots : Nat → Nat} {bytes : Bytes} {i : Nat} {pair : String × V}
    (h : Backed e slots bytes i pair) (more : Bytes) : Backed e slots (bytes ++ more) i pair := by
  obtain ⟨hhash, offset, hslot, hrecorded⟩ := h
  exact ⟨hhash, offset, hslot, hrecorded.append more⟩

/-- The slots are those of a table of pairs. -/
structure Table (e : Setting V) (slots : Nat → Nat) (capacity : Nat) (bytes : Bytes)
    (cell : Nat → Option (String × V)) : Prop where
  bits : ∃ bits, capacity = 2 ^ bits
  probed : Probed capacity (hash e) cell
  empty : ∀ i < capacity, cell i = none → slots (i * 2) = 0
  full : ∀ i < capacity, ∀ pair, cell i = some pair → Backed e slots bytes i pair

theorem Table.append {slots : Nat → Nat} {capacity : Nat} {bytes : Bytes}
    {cell : Nat → Option (String × V)} (h : Table e slots capacity bytes cell) (more : Bytes) :
    Table e slots capacity (bytes ++ more) cell where
  bits := h.bits
  probed := h.probed
  empty := h.empty
  full i hi pair hcell := (h.full i hi pair hcell).append more

theorem table_empty {bits : Nat} (bytes : Bytes) :
    Table e (fun _ => 0) (2 ^ bits) bytes fun _ => none where
  bits := ⟨bits, rfl⟩
  probed := probed_empty _ _
  empty _ _ _ := rfl
  full i _ pair h := by cases h

section Slots

variable {slots : Nat → Nat} {capacity : Nat} {bytes : Bytes} {cell : Nat → Option (String × V)}

theorem Table.pos (h : Table e slots capacity bytes cell) : 0 < capacity := by
  obtain ⟨bits, rfl⟩ := h.bits
  exact Nat.two_pow_pos bits

theorem Table.eq_zero_iff (h : Table e slots capacity bytes cell) {i : Nat} (hi : i < capacity) :
    slots (i * 2) = 0 ↔ cell i = none := by
  refine ⟨fun hzero => ?_, h.empty i hi⟩
  cases hcell : cell i with
  | none => rfl
  | some pair =>
    obtain ⟨-, offset, hslot, -⟩ := h.full i hi pair hcell
    omega

theorem setSlot_place (slots : Nat → Nat) (slot offset hash j : Nat) :
    setSlot slots slot offset hash (j * 2) = if j = slot then offset else slots (j * 2) := by
  unfold setSlot
  rw [Function.update_of_ne (by omega)]
  split_ifs with hj
  · rw [hj, Function.update_self]
  · rw [Function.update_of_ne (by omega)]

theorem setSlot_hash (slots : Nat → Nat) (slot offset hash j : Nat) :
    setSlot slots slot offset hash (j * 2 + 1) = if j = slot then hash else slots (j * 2 + 1) := by
  unfold setSlot
  split_ifs with hj
  · rw [hj, Function.update_self]
  · rw [Function.update_of_ne (by omega), Function.update_of_ne (by omega)]

/-- The pair of a key goes to a slot that the key may take. -/
theorem Table.setSlot (h : Table e slots capacity bytes cell) {key : String} {value : V} {d : Nat}
    (hd : d < capacity) (htakes : Takes capacity cell key (walked capacity (hash e key) d))
    (hbefore : ∀ j < d, cell (walked capacity (hash e key) j) ≠ none) {offset : Nat}
    (hrecorded : Recorded e bytes offset (key, value)) :
    Table e (setSlot slots (walked capacity (hash e key) d) (offset + 1)
        (hash e key)) capacity bytes
      (Function.update cell (walked capacity (hash e key) d) (some (key, value))) where
  bits := h.bits
  probed := htakes.probed h.probed hd hbefore value
  empty i hi hcell := by
    have hne : i ≠ walked capacity (hash e key) d := by
      intro heq
      rw [heq, Function.update_self] at hcell
      cases hcell
    rw [Function.update_of_ne hne] at hcell
    rw [setSlot_place, if_neg hne]
    exact h.empty i hi hcell
  full i hi pair hcell := by
    by_cases heq : i = walked capacity (hash e key) d
    · rw [heq, Function.update_self] at hcell
      have hpair := Option.some.inj hcell
      refine ⟨?_, offset, ?_, hpair ▸ hrecorded⟩
      · rw [setSlot_hash, if_pos heq, ← hpair]
      · rw [setSlot_place, if_pos heq]
    · rw [Function.update_of_ne heq] at hcell
      obtain ⟨hhash, place, hslot, hplace⟩ := h.full i hi pair hcell
      refine ⟨?_, place, ?_, hplace⟩
      · rw [setSlot_hash, if_neg heq, hhash]
      · rw [setSlot_place, if_neg heq, hslot]

/-- The loop that looks for an empty slot ends at the first one behind the hash. -/
theorem Table.emptySlot (h : Table e slots capacity bytes cell) (hroom : used capacity cell < capacity)
    (hash : Nat) :
    ∃ d < capacity, emptySlot slots capacity hash = some (walked capacity hash d) ∧
      cell (walked capacity hash d) = none ∧ ∀ j < d, cell (walked capacity hash j) ≠ none := by
  obtain ⟨bits, hbits⟩ := h.bits
  have hlt := walked_lt h.pos hash
  obtain ⟨d, hd, hempty⟩ := exists_empty hroom hash
  have hzero : (slots (walked capacity hash d * 2) == 0) = true :=
    beq_iff_eq.2 ((h.eq_zero_iff (hlt d)).2 hempty)
  obtain ⟨n, hn, hprobe, hfirst, hbefore⟩ :=
    probe_spec (p := fun slot => slots (slot * 2) == 0) hbits hd hzero
  refine ⟨n, by omega, ?_, (h.eq_zero_iff (hlt n)).1 (beq_iff_eq.1 hfirst), ?_⟩
  · unfold DiskMap.emptySlot
    rw [and_pred_eq_mod hbits]
    exact hprobe
  · intro j hj hnone
    have hfalse := hbefore j hj
    rw [beq_eq_false_iff_ne] at hfalse
    exact hfalse ((h.eq_zero_iff (hlt j)).2 hnone)

end Slots

/-! ## Searching -/

/-- Where a search ends: at the pair of the key, or at the empty cell behind its hash. -/
structure Found (e : Setting V) (capacity : Nat) (cell : Nat → Option (String × V)) (key : String)
    (d : Nat) (previous : Option V) : Prop where
  lt : d < capacity
  before : ∀ j < d, cell (walked capacity (hash e key) j) ≠ none
  at_end : cell (walked capacity (hash e key) d) = previous.map fun value => (key, value)
  takes : Takes capacity cell key (walked capacity (hash e key) d)
  content : ∀ value, Content capacity cell key value ↔ previous = some value

section Search

variable {m : DiskMap} {bytes : Bytes} {cell : Nat → Option (String × V)}

theorem Table.found_none (h : Table e m.slots m.capacity bytes cell) {key : String} {d : Nat}
    (hd : d < m.capacity) (hbefore : ∀ j < d, cell (walked m.capacity (hash e key) j) ≠ none)
    (hother : ∀ j < d, ∀ value, cell (walked m.capacity (hash e key) j) ≠ some (key, value))
    (hnone : cell (walked m.capacity (hash e key) d) = none) :
    Found e m.capacity cell key d none where
  lt := hd
  before := hbefore
  at_end := hnone
  takes := takes_empty (walked_lt h.pos _ d) hnone (h.probed.absent hother hnone)
  content value := by
    constructor
    · intro hcontent
      exact absurd hcontent (h.probed.absent hother hnone value)
    · intro hsome
      cases hsome

theorem Table.found_some (h : Table e m.slots m.capacity bytes cell) {key : String} {value : V}
    {d : Nat} (hd : d < m.capacity)
    (hbefore : ∀ j < d, cell (walked m.capacity (hash e key) j) ≠ none)
    (hsome : cell (walked m.capacity (hash e key) d) = some (key, value)) :
    Found e m.capacity cell key d (some value) where
  lt := hd
  before := hbefore
  at_end := hsome
  takes := h.probed.takes (walked_lt h.pos _ d) hsome
  content value' := by
    have htakes := h.probed.takes (walked_lt h.pos _ d) hsome
    constructor
    · rintro ⟨i, hi, hcell⟩
      rw [htakes.sole i hi value' hcell, hsome] at hcell
      exact congrArg some (Prod.mk.inj (Option.some.inj hcell)).2
    · intro heq
      rw [← Option.some.inj heq]
      exact ⟨_, htakes.lt, hsome⟩

/-- The loop of `find` ends where the search for the key ends in the table. -/
theorem Table.findLoop (h : Table e m.slots m.capacity bytes cell) (key : String) {stop : Nat}
    (hstop : stop < m.capacity) (hempty : cell (walked m.capacity (hash e key) stop) = none)
    (n i : Nat) {data : Reader} (hdata : data.Over bytes) (hi : i ≤ stop) (hn : stop < i + n)
    (hbefore : ∀ j < i, cell (walked m.capacity (hash e key) j) ≠ none)
    (hother : ∀ j < i, ∀ value, cell (walked m.capacity (hash e key) j) ≠ some (key, value)) :
    ∃ d previous data', findLoop e m key (hash e key) n (walked m.capacity (hash e key) i) data =
        some (walked m.capacity (hash e key) d, previous, data') ∧
      data'.Over bytes ∧ Found e m.capacity cell key d previous := by
  induction n generalizing i data with
  | zero => omega
  | succ n ih =>
    have hlt := walked_lt h.pos (hash e key) i
    have hnext : (walked m.capacity (hash e key) i + 1) &&& (m.capacity - 1) =
        walked m.capacity (hash e key) (i + 1) := by
      obtain ⟨bits, hbits⟩ := h.bits
      rw [and_pred_eq_mod hbits, walked_succ]
    unfold DiskMap.findLoop
    rw [hnext]
    cases hcell : cell (walked m.capacity (hash e key) i) with
    | none =>
      rw [if_pos ((h.eq_zero_iff hlt).2 hcell)]
      exact ⟨i, none, data, rfl, hdata, h.found_none (by omega) hbefore hother hcell⟩
    | some pair =>
      have hnonzero : ¬ m.slots (walked m.capacity (hash e key) i * 2) = 0 := by
        rw [h.eq_zero_iff hlt, hcell]
        exact Option.some_ne_none _
      have hne : i ≠ stop := by
        rintro rfl
        rw [hempty] at hcell
        cases hcell
      have hbefore' : ∀ j < i + 1, cell (walked m.capacity (hash e key) j) ≠ none := by
        intro j hj
        rcases Nat.lt_succ_iff_lt_or_eq.1 hj with hj | rfl
        · exact hbefore j hj
        · rw [hcell]
          exact Option.some_ne_none _
      have hother' : pair.1 ≠ key → ∀ j < i + 1, ∀ value,
          cell (walked m.capacity (hash e key) j) ≠ some (key, value) := by
        intro hkey j hj value
        rcases Nat.lt_succ_iff_lt_or_eq.1 hj with hj | rfl
        · exact hother j hj value
        · rw [hcell]
          intro heq
          exact hkey (congrArg Prod.fst (Option.some.inj heq))
      obtain ⟨hhash, offset, hslot, hrecorded⟩ := h.full _ hlt pair hcell
      rw [if_neg hnonzero]
      split_ifs with hsame
      · rw [hslot, Nat.add_sub_cancel]
        obtain ⟨data', hrow, hover⟩ := row_spec hdata hrecorded
        rw [hrow, Option.bind_some]
        split_ifs with hkey
        · refine ⟨i, some pair.2, data', rfl, hover, h.found_some (by omega) hbefore ?_⟩
          rw [hcell, ← hkey]
        · exact ih (i + 1) hover (by omega) (by omega) hbefore' (hother' hkey)
      · refine ih (i + 1) hdata (by omega) (by omega) hbefore' (hother' ?_)
        intro hkey
        exact hsame (hhash.trans (congrArg (hash e) hkey))

/-- As long as a slot is empty, `find` ends. -/
theorem Table.find (h : Table e m.slots m.capacity bytes cell) (hdata : m.data.Over bytes)
    (hroom : used m.capacity cell < m.capacity) (key : String) :
    ∃ d previous data', find e m key (hash e key) =
        some (walked m.capacity (hash e key) d, previous, data') ∧
      data'.Over bytes ∧ Found e m.capacity cell key d previous := by
  obtain ⟨bits, hbits⟩ := h.bits
  obtain ⟨stop, hstop, hempty⟩ := exists_empty hroom (hash e key)
  unfold DiskMap.find
  rw [and_pred_eq_mod hbits]
  exact h.findLoop key hstop hempty m.capacity 0 hdata (Nat.zero_le _) (by omega)
    (fun j hj => absurd hj (Nat.not_lt_zero j)) fun j hj => absurd hj (Nat.not_lt_zero j)

end Search

end Sunpack.Scratch.DiskMap
