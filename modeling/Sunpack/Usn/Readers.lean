import Mathlib
import Sunpack.Lib.Machine
import Sunpack.Usn.Lifetimes
import Sunpack.Usn.Reasons

/-!
# The readers of the volumes

`JournalDispatcher` of the broker: a table with one reader for each volume that is asked for, which forgets
the readers that nobody uses. A worker has at most one reader at a time, that of the request it handles.
With as many workers as the table has places, a volume in use never has a second reader.
-/

namespace Sunpack.Usn.Readers

open Lib

def maxVolumeContexts : Nat := 64

/-- In nanoseconds. -/
def volumeContextIdleTtl : Nat := 60 * 10 ^ 9

/-- An entry of the table; a reader is known by its number. -/
structure Slot where
  key : Bytes
  reader : Nat
  lastUsed : Nat
  deriving DecidableEq

/-- The table, with what each worker holds and under which key. -/
structure State (ι : Type) where
  entries : List Slot
  held : ι → Option (Bytes × Nat)
  nextReader : Nat

inductive Action (ι : Type)
  | readerFor (worker : ι) (volumeGuid : Name) (now : Nat)
  /-- The request is handled, and the reader given back. -/
  | done (worker : ι)

section

variable {ι : Type} [Fintype ι] [DecidableEq ι]

namespace State

variable (s : State ι)

/-- `to_ascii_lowercase` of the bytes of a name. -/
def keyOf (volumeGuid : Name) : Bytes := (toUtf8 volumeGuid).map asciiLower

/-- Somebody else than the table has the reader. -/
def inUse (reader : Nat) : Bool := ∃ w, (s.held w).map Prod.snd = some reader

def reapIdle (now : Nat) : List Slot :=
  s.entries.filter fun slot => s.inUse slot.reader || now - slot.lastUsed < volumeContextIdleTtl

/-- Of several that were last used at the same time, the first in the order of the table. -/
def lru (entries : List Slot) : Option Slot :=
  (entries.filter fun slot => !s.inUse slot.reader).argmin Slot.lastUsed

def touch (key : Bytes) (now : Nat) (entries : List Slot) : List Slot :=
  entries.map fun slot => if slot.key = key then { slot with lastUsed := now } else slot

/-- A new reader for a key. If every reader of a full table is in use, it is not kept in the table. -/
def newReader (key : Bytes) (now : Nat) (entries : List Slot) : List Slot :=
  if entries.length < maxVolumeContexts then entries ++ [⟨key, s.nextReader, now⟩]
  else
    match s.lru entries with
    | some slot => entries.erase slot ++ [⟨key, s.nextReader, now⟩]
    | none => entries

def give (worker : ι) (key : Bytes) (reader : Nat) (entries : List Slot) (nextReader : Nat) :
    State ι :=
  ⟨entries, Function.update s.held worker (some (key, reader)), nextReader⟩

def lookup (worker : ι) (key : Bytes) (now : Nat) : State ι :=
  match (s.reapIdle now).find? fun slot => slot.key = key with
  | some slot => s.give worker key slot.reader (touch key now (s.reapIdle now)) s.nextReader
  | none =>
    s.give worker key s.nextReader (s.newReader key now (s.reapIdle now)) (s.nextReader + 1)

/-- A worker that handles a request asks for no other reader. -/
def readerFor (worker : ι) (volumeGuid : Name) (now : Nat) : Option (State ι) :=
  match s.held worker with
  | some _ => none
  | none =>
    some (if volumeGuidIsValid (toUtf8 volumeGuid) then s.lookup worker (keyOf volumeGuid) now else s)

def done (worker : ι) : Option (State ι) :=
  some { s with held := Function.update s.held worker none }

end State

def step (s : State ι) : Action ι → Option (State ι)
  | .readerFor worker volumeGuid now => s.readerFor worker volumeGuid now
  | .done worker => s.done worker

def dispatcher (ι : Type) [Fintype ι] [DecidableEq ι] : Machine (State ι) (Action ι) :=
  ⟨⟨[], fun _ => none, 0⟩, step⟩

/-! ## The table -/

structure Inv (s : State ι) : Prop where
  length_le : s.entries.length ≤ maxVolumeContexts
  keys : (s.entries.map Slot.key).Nodup
  readers : (s.entries.map Slot.reader).Nodup
  fresh : ∀ slot ∈ s.entries, slot.reader < s.nextReader
  held : ∀ w key reader, s.held w = some (key, reader) →
    ∃ slot ∈ s.entries, slot.key = key ∧ slot.reader = reader

variable {s : State ι}

omit [DecidableEq ι] in
theorem inUse_iff {reader : Nat} :
    s.inUse reader = true ↔ ∃ w key, s.held w = some (key, reader) := by
  simp only [State.inUse, decide_eq_true_eq, Option.map_eq_some_iff]
  constructor
  · intro h
    obtain ⟨w, ⟨key, r⟩, hw, rfl⟩ := h
    exact ⟨w, key, hw⟩
  · intro h
    obtain ⟨w, key, hw⟩ := h
    exact ⟨w, (key, reader), hw, rfl⟩

/-- The idea: in a full table that is all in use each place would need a worker of its own, and the one
that asks has none. -/
theorem exists_unused (hcard : Fintype.card ι ≤ maxVolumeContexts) {entries : List Slot}
    (hreaders : (entries.map Slot.reader).Nodup) (hfull : maxVolumeContexts ≤ entries.length)
    {worker : ι} (hnone : s.held worker = none) :
    ∃ slot ∈ entries, s.inUse slot.reader = false := by
  by_contra hall
  have hused : ∀ slot ∈ entries, s.inUse slot.reader = true := by
    intro slot hslot
    by_contra hfree
    exact hall ⟨slot, hslot, by simpa using hfree⟩
  have hsub : (entries.map Slot.reader).toFinset ⊆
      (Finset.univ.erase worker).image fun w => ((s.held w).map Prod.snd).getD 0 := by
    intro reader hreader
    obtain ⟨slot, hslot, rfl⟩ := List.mem_map.1 (List.mem_toFinset.1 hreader)
    obtain ⟨w, key, hw⟩ := inUse_iff.1 (hused slot hslot)
    refine Finset.mem_image.2 ⟨w, ?_, by rw [hw]; rfl⟩
    apply Finset.mem_erase.2
    refine ⟨?_, Finset.mem_univ w⟩
    intro heq
    rw [heq, hnone] at hw
    simp at hw
  have hcount := (Finset.card_le_card hsub).trans Finset.card_image_le
  rw [List.toFinset_card_of_nodup hreaders, List.length_map,
    Finset.card_erase_of_mem (Finset.mem_univ worker), Finset.card_univ] at hcount
  have hpos : 0 < Fintype.card ι := Fintype.card_pos_iff.2 ⟨worker⟩
  omega

omit [DecidableEq ι] in
theorem reapIdle_sublist (now : Nat) : (s.reapIdle now).Sublist s.entries := List.filter_sublist

omit [DecidableEq ι] in
/-- A reader in use is never reaped. -/
theorem mem_reapIdle {slot : Slot} (hslot : slot ∈ s.entries) (hused : s.inUse slot.reader = true)
    (now : Nat) : slot ∈ s.reapIdle now := by
  apply List.mem_filter.2
  simp [hslot, hused]

omit [DecidableEq ι] in
theorem lru_unused {entries : List Slot} {slot : Slot} (h : s.lru entries = some slot) :
    slot ∈ entries ∧ s.inUse slot.reader = false := by
  have hmem := List.argmin_mem h
  simpa using List.mem_filter.1 hmem

/-- What a table has to keep for the others while one worker asks. -/
structure Kept (s : State ι) (entries : List Slot) : Prop where
  length_le : entries.length ≤ maxVolumeContexts
  keys : (entries.map Slot.key).Nodup
  readers : (entries.map Slot.reader).Nodup
  fresh : ∀ slot ∈ entries, slot.reader < s.nextReader
  used : ∀ w key reader, s.held w = some (key, reader) →
    ∃ slot ∈ entries, slot.key = key ∧ slot.reader = reader

omit [DecidableEq ι] in
theorem Inv.reapIdle (h : Inv s) (now : Nat) : Kept s (s.reapIdle now) := by
  have hsub := reapIdle_sublist (s := s) now
  constructor
  · exact hsub.length_le.trans h.length_le
  · exact h.keys.sublist (hsub.map _)
  · exact h.readers.sublist (hsub.map _)
  · intro slot hslot
    exact h.fresh slot (hsub.subset hslot)
  · intro w key reader hw
    obtain ⟨slot, hslot, hkey, hreader⟩ := h.held w key reader hw
    refine ⟨slot, mem_reapIdle hslot ?_ now, hkey, hreader⟩
    rw [hreader]
    exact inUse_iff.2 ⟨w, key, hw⟩

theorem map_touch (key : Bytes) (now : Nat) (entries : List Slot) :
    (State.touch key now entries).map Slot.key = entries.map Slot.key ∧
      (State.touch key now entries).map Slot.reader = entries.map Slot.reader := by
  unfold State.touch
  constructor
  · rw [List.map_map]
    apply List.map_congr_left
    intro slot _
    simp only [Function.comp_apply]
    split_ifs <;> rfl
  · rw [List.map_map]
    apply List.map_congr_left
    intro slot _
    simp only [Function.comp_apply]
    split_ifs <;> rfl

/-- A touched entry has its key and its reader. -/
theorem mem_touch (key : Bytes) (now : Nat) {entries : List Slot} {slot : Slot}
    (h : slot ∈ entries) :
    ∃ other ∈ State.touch key now entries, other.key = slot.key ∧ other.reader = slot.reader := by
  refine ⟨_, List.mem_map_of_mem h, ?_⟩
  split_ifs <;> exact ⟨rfl, rfl⟩

theorem of_mem_touch {key : Bytes} {now : Nat} {entries : List Slot} {slot : Slot}
    (h : slot ∈ State.touch key now entries) :
    ∃ other ∈ entries, other.key = slot.key ∧ other.reader = slot.reader := by
  obtain ⟨other, hother, rfl⟩ := List.mem_map.1 h
  refine ⟨other, hother, ?_⟩
  split_ifs <;> exact ⟨rfl, rfl⟩

omit [Fintype ι] [DecidableEq ι] in
theorem Kept.touch {entries : List Slot} (h : Kept s entries) (key : Bytes) (now : Nat) :
    Kept s (State.touch key now entries) := by
  obtain ⟨hkeys, hreaders⟩ := map_touch key now entries
  constructor
  · rw [State.touch, List.length_map]
    exact h.length_le
  · rw [hkeys]
    exact h.keys
  · rw [hreaders]
    exact h.readers
  · intro slot hslot
    obtain ⟨other, hother, -, hreader⟩ := of_mem_touch hslot
    rw [← hreader]
    exact h.fresh other hother
  · intro w k reader hw
    obtain ⟨slot, hslot, rfl, rfl⟩ := h.used w k reader hw
    exact mem_touch _ _ hslot

omit [DecidableEq ι] in
theorem Kept.erase {entries : List Slot} (h : Kept s entries) {slot : Slot}
    (hunused : s.inUse slot.reader = false) : Kept s (entries.erase slot) := by
  have hsub : (entries.erase slot).Sublist entries := List.erase_sublist
  constructor
  · exact hsub.length_le.trans h.length_le
  · exact h.keys.sublist (hsub.map _)
  · exact h.readers.sublist (hsub.map _)
  · intro other hother
    exact h.fresh other (hsub.subset hother)
  · intro w key reader hw
    obtain ⟨other, hother, hkey, hreader⟩ := h.used w key reader hw
    refine ⟨other, ?_, hkey, hreader⟩
    apply (List.mem_erase_of_ne ?_).2 hother
    intro heq
    have hused : s.inUse other.reader = true := inUse_iff.2 ⟨w, key, by rw [hw, hreader]⟩
    rw [heq, hunused] at hused
    simp at hused

omit [Fintype ι] in
/-- A worker gets the reader of an entry. -/
theorem Kept.give {entries : List Slot} (h : Kept s entries) {slot : Slot} (hslot : slot ∈ entries)
    (worker : ι) : Inv (s.give worker slot.key slot.reader entries s.nextReader) := by
  refine ⟨h.length_le, h.keys, h.readers, h.fresh, ?_⟩
  intro w key reader hw
  by_cases hwho : w = worker
  · subst hwho
    simp only [State.give, Function.update_self, Option.some.injEq, Prod.mk.injEq] at hw
    exact ⟨slot, hslot, hw.1, hw.2⟩
  · simp only [State.give, Function.update_of_ne hwho] at hw
    exact h.used w key reader hw

omit [Fintype ι] in
/-- A worker gets a new reader, which is entered. -/
theorem Kept.giveNew {entries : List Slot} (h : Kept s entries)
    (hroom : entries.length < maxVolumeContexts) {key : Bytes} (hkey : ∀ slot ∈ entries, slot.key ≠ key)
    (worker : ι) (now : Nat) :
    Inv (s.give worker key s.nextReader (entries ++ [⟨key, s.nextReader, now⟩]) (s.nextReader + 1)) := by
  constructor
  · simp only [State.give, List.length_append, List.length_singleton]
    omega
  · simp only [State.give, List.map_append, List.map_cons, List.map_nil]
    apply h.keys.append (List.nodup_singleton key)
    simpa using fun slot hslot => hkey slot hslot
  · simp only [State.give, List.map_append, List.map_cons, List.map_nil]
    apply h.readers.append (List.nodup_singleton s.nextReader)
    simpa using fun slot hslot => Nat.ne_of_lt (h.fresh slot hslot)
  · intro slot hslot
    simp only [State.give, List.mem_append, List.mem_singleton] at hslot ⊢
    rcases hslot with hslot | hslot
    · have hlt := h.fresh slot hslot
      omega
    · rw [hslot]
      exact Nat.lt_succ_self _
  · intro w k reader hw
    by_cases hwho : w = worker
    · subst hwho
      simp only [State.give, Function.update_self, Option.some.injEq, Prod.mk.injEq] at hw
      refine ⟨⟨key, s.nextReader, now⟩, ?_, hw.1, hw.2⟩
      simp [State.give]
    · simp only [State.give, Function.update_of_ne hwho] at hw
      obtain ⟨slot, hslot, heq⟩ := h.used w k reader hw
      refine ⟨slot, ?_, heq⟩
      simp [State.give, hslot]

theorem Inv.lookup (h : Inv s) (hcard : Fintype.card ι ≤ maxVolumeContexts) {worker : ι}
    (hnone : s.held worker = none) (key : Bytes) (now : Nat) : Inv (s.lookup worker key now) := by
  have hkept := h.reapIdle now
  unfold State.lookup
  split
  · next slot hfind =>
    have hkey : slot.key = key := by simpa using List.find?_some hfind
    obtain ⟨other, hother, hsame, hreader⟩ :=
      mem_touch key now (List.mem_of_find?_eq_some hfind)
    have hgive := (hkept.touch key now).give hother worker
    rw [hsame, hkey, hreader] at hgive
    exact hgive
  · next hfind =>
    have habsent : ∀ slot ∈ s.reapIdle now, slot.key ≠ key := by
      intro slot hslot heq
      have hno := List.find?_eq_none.1 hfind slot hslot
      simp [heq] at hno
    unfold State.newReader
    split_ifs with hroom
    · exact hkept.giveNew hroom habsent worker now
    · obtain ⟨unused, hunused, hfree⟩ :=
        exists_unused hcard hkept.readers (by omega) hnone
      split
      · next slot hlru =>
        obtain ⟨hslot, hslotFree⟩ := lru_unused hlru
        have hlength := List.length_erase_of_mem hslot
        have hpos := List.length_pos_of_mem hslot
        have hle := hkept.length_le
        refine (hkept.erase hslotFree).giveNew (by omega) ?_ worker now
        intro other hother
        exact habsent other (List.mem_of_mem_erase hother)
      · next hlru =>
        have hempty := List.argmin_eq_none.1 hlru
        have hin : unused ∈ (s.reapIdle now).filter fun slot => !s.inUse slot.reader :=
          List.mem_filter.2 ⟨hunused, by simp [hfree]⟩
        rw [hempty] at hin
        simp at hin

theorem Inv.step (hcard : Fintype.card ι ≤ maxVolumeContexts) {t : State ι} {a : Action ι}
    (h : Inv s) (hstep : step s a = some t) : Inv t := by
  cases a with
  | readerFor worker volumeGuid now =>
    simp only [Readers.step, State.readerFor] at hstep
    split at hstep
    · simp at hstep
    · next hnone =>
      simp only [Option.some.injEq] at hstep
      subst hstep
      split_ifs
      · exact h.lookup hcard hnone _ now
      · exact h
  | done worker =>
    simp only [Readers.step, State.done, Option.some.injEq] at hstep
    subst hstep
    refine ⟨h.length_le, h.keys, h.readers, h.fresh, ?_⟩
    intro w key reader hw
    by_cases hwho : w = worker
    · subst hwho
      simp at hw
    · simp only [Function.update_of_ne hwho] at hw
      exact h.held w key reader hw

/-- With as many workers as the broker has, two of them have the same reader exactly if it is the same
volume, and the table has the readers that are in use and at most 64. -/
theorem readers_shared (hcard : Fintype.card ι ≤ Lifetimes.maxConnectedClients)
    (h : (dispatcher ι).Reachable s) :
    s.entries.length ≤ maxVolumeContexts ∧ (s.entries.map Slot.key).Nodup ∧
      (∀ w key reader, s.held w = some (key, reader) →
        ∃ slot ∈ s.entries, slot.key = key ∧ slot.reader = reader) ∧
      ∀ w v key reader key' reader', s.held w = some (key, reader) →
        s.held v = some (key', reader') → (key = key' ↔ reader = reader') := by
  have hinv : Inv s := by
    refine h.invariant ?_ ?_
    · exact ⟨by simp [dispatcher], by simp [dispatcher], by simp [dispatcher], by simp [dispatcher],
        fun w key reader hw => by simp [dispatcher] at hw⟩
    · intro s a t hs hstep
      exact hs.step hcard hstep
  refine ⟨hinv.length_le, hinv.keys, hinv.held, ?_⟩
  intro w v key reader key' reader' hw hv
  obtain ⟨slot, hslot, rfl, rfl⟩ := hinv.held w key reader hw
  obtain ⟨other, hother, rfl, rfl⟩ := hinv.held v key' reader' hv
  constructor
  · intro heq
    rw [List.inj_on_of_nodup_map hinv.keys hslot hother heq]
  · intro heq
    rw [List.inj_on_of_nodup_map hinv.readers hslot hother heq]

end

/-- Two workers with the same volume. -/
def sharedState : State Bool where
  entries := [⟨State.keyOf watchedVolume, 0, 7⟩]
  held := Function.update (Function.update (fun _ => none) false (some (State.keyOf watchedVolume, 0))) true
    (some (State.keyOf watchedVolume, 0))
  nextReader := 1

theorem sharedState_reachable : (dispatcher Bool).Reachable sharedState := by
  have hrun : (dispatcher Bool).exec (dispatcher Bool).init
      [.readerFor false watchedVolume 5, .readerFor true watchedVolume 7] = some sharedState := rfl
  exact .of_exec hrun

theorem readers_shared_two :
    sharedState.entries.length ≤ maxVolumeContexts ∧ (sharedState.entries.map Slot.key).Nodup ∧
      (∀ w key reader, sharedState.held w = some (key, reader) →
        ∃ slot ∈ sharedState.entries, slot.key = key ∧ slot.reader = reader) ∧
      ∀ w v key reader key' reader', sharedState.held w = some (key, reader) →
        sharedState.held v = some (key', reader') → (key = key' ↔ reader = reader') :=
  readers_shared (by decide) sharedState_reachable

end Sunpack.Usn.Readers
