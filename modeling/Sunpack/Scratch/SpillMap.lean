import Sunpack.Lib.Sums64
import Sunpack.Scratch.Growth

/-!
# The map that spills

`SpillMap` of `scratch.rs`: a hash map until its keys take too much memory, a map on the disk from then
on. Its calls have the answers of a plain map, whenever it moves.
-/

namespace Sunpack.Scratch

open Sunpack.Lib

/-- The least power of two that is not less. -/
def nextPowerOfTwo (n : Nat) : Nat := 2 ^ Nat.clog 2 n

structure SpillMap (V : Type) where
  memory : Dict String V
  bytes : Nat
  disk : Option DiskMap

variable {V : Type} (e : Setting V)

namespace SpillMap

def empty : SpillMap V := ⟨∅, 0, none⟩

def putPair (disk : DiskMap) (pair : String × V) : Option DiskMap :=
  (disk.put e pair.1 pair.2 false).map Prod.snd

def spill (m : SpillMap V) : Option (SpillMap V) :=
  if m.disk.isSome || decide (m.bytes ≤ e.memoryBytes) then some m
  else
    ((e.iterate m.memory).foldlM (putPair e)
      (DiskMap.new (nextPowerOfTwo (max (m.memory.entries.length * 2) 16)))).map fun disk =>
        ⟨∅, m.bytes, some disk⟩

/-- A new value; only a new key counts. -/
def insert (m : SpillMap V) (key : String) (value : V) : SpillMap V where
  memory := m.memory.set key value
  bytes :=
    if (m.memory.get? key).isSome then m.bytes
    else sat64 m.bytes (key.utf8ByteSize + e.valueBytes + 64)
  disk := m.disk

def get (m : SpillMap V) (key : String) : Option (Option V × SpillMap V) :=
  match m.disk with
  | some disk => (disk.get e key).map fun out => (out.1, { m with disk := some out.2 })
  | none => some (m.memory.get? key, m)

def put (m : SpillMap V) (key : String) (value : V) : Option (SpillMap V) :=
  match m.disk with
  | some disk => (disk.put e key value false).map fun out => { m with disk := some out.2 }
  | none => (m.insert e key value).spill e

def insertNew (m : SpillMap V) (key : String) (value : V) : Option (Bool × SpillMap V) :=
  match m.disk with
  | some disk => (disk.put e key value true).map fun out => (out.1, { m with disk := some out.2 })
  | none =>
    if (m.memory.get? key).isSome then (m.spill e).map fun m => (false, m)
    else ((m.insert e key value).spill e).map fun m => (true, m)

end SpillMap

/-! ## Calls -/

inductive Call (V : Type) where
  | get (key : String)
  | put (key : String) (value : V)
  | insertNew (key : String) (value : V)

inductive Answer (V : Type) where
  | value (found : Option V)
  | done
  | inserted (isNew : Bool)

def SpillMap.call (m : SpillMap V) : Call V → Option (Answer V × SpillMap V)
  | .get key => (m.get e key).map fun out => (.value out.1, out.2)
  | .put key value => (m.put e key value).map fun m => (.done, m)
  | .insertNew key value => (m.insertNew e key value).map fun out => (.inserted out.1, out.2)

/-- The calls up to the first error. -/
def SpillMap.run : List (Call V) → SpillMap V → Option (List (Answer V) × SpillMap V)
  | [], m => some ([], m)
  | call :: calls, m =>
    (m.call e call).bind fun out => (SpillMap.run calls out.2).map fun rest =>
      (out.1 :: rest.1, rest.2)

/-! ## A plain map -/

/-- From exact keys to values. -/
abbrev Plain (V : Type) := String → Option V

namespace Plain

def answer (f : Plain V) : Call V → Answer V
  | .get key => .value (f key)
  | .put _ _ => .done
  | .insertNew key _ => .inserted (f key).isNone

def result (f : Plain V) : Call V → Plain V
  | .get _ => f
  | .put key value => Function.update f key (some value)
  | .insertNew key value => if (f key).isSome then f else Function.update f key (some value)

def answers : List (Call V) → Plain V → List (Answer V)
  | [], _ => []
  | call :: calls, f => f.answer call :: answers calls (f.result call)

def results (calls : List (Call V)) (f : Plain V) : Plain V := calls.foldl result f

end Plain

/-- What a call is to store. -/
def Call.pair : Call V → Option (String × V)
  | .get _ => none
  | .put key value => some (key, value)
  | .insertNew key value => some (key, value)

theorem Plain.result_eq_some {f : Plain V} {call : Call V} {key : String} {value : V}
    (h : f.result call key = some value) : f key = some value ∨ call.pair = some (key, value) := by
  have hupdate : ∀ key' value', Function.update f key' (some value') key = some value →
      f key = some value ∨ some (key', value') = some (key, value) := by
    intro key' value' h
    by_cases hkey : key = key'
    · subst hkey
      rw [Function.update_self] at h
      rw [Option.some.inj h]
      exact .inr rfl
    · rw [Function.update_of_ne hkey] at h
      exact .inl h
  cases call with
  | get _ => exact .inl h
  | put key' value' => exact hupdate key' value' h
  | insertNew key' value' =>
    cases hkey : f key' with
    | some old =>
      have hresult : f.result (.insertNew key' value') = f := by simp [Plain.result, hkey]
      rw [hresult] at h
      exact .inl h
    | none =>
      have hresult : f.result (.insertNew key' value') = Function.update f key' (some value') := by
        simp [Plain.result, hkey]
      rw [hresult] at h
      exact hupdate key' value' h

/-! ## Spilling -/

/-- A record whose length does not fit into four bytes. -/
def TooLong (pair : String × V) : Prop := 2 ^ 32 ≤ (e.encode pair).length

variable {e}

def putAll (pairs : List (String × V)) (f : Plain V) : Plain V :=
  pairs.foldl (fun f pair => Function.update f pair.1 (some pair.2)) f

theorem putAll_eq {pairs : List (String × V)} (h : (pairs.map Prod.fst).Nodup) (f : Plain V)
    (key : String) : putAll pairs f key = (Dict.find key pairs).or (f key) := by
  induction pairs generalizing f with
  | nil => rfl
  | cons pair pairs ih =>
    rw [List.map_cons, List.nodup_cons] at h
    show putAll pairs (Function.update f pair.1 (some pair.2)) key = _
    rw [ih h.2, Dict.find]
    split_ifs with hkey
    · subst hkey
      rw [Dict.find_eq_none.2 h.1, Function.update_self]
      rfl
    · rw [Function.update_of_ne (Ne.symm hkey)]

theorem putPairs_spec (pairs : List (String × V)) {disk : DiskMap} {f : Plain V}
    (h : disk.Shows e f) :
    pairs.foldlM (SpillMap.putPair e) disk = none ∧ (∃ pair ∈ pairs, TooLong e pair) ∨
      ∃ disk', pairs.foldlM (SpillMap.putPair e) disk = some disk' ∧
        disk'.Shows e (putAll pairs f) := by
  induction pairs generalizing disk f with
  | nil => exact .inr ⟨disk, rfl, h⟩
  | cons pair pairs ih =>
    rw [List.foldlM_cons]
    rcases h.put pair.1 pair.2 false with ⟨hnone, hlong⟩ | ⟨disk', hput, hshows⟩
    · refine .inl ⟨?_, pair, List.mem_cons_self, hlong⟩
      unfold SpillMap.putPair
      rw [hnone]
      rfl
    · have hpair : SpillMap.putPair e disk pair = some disk' := by
        unfold SpillMap.putPair
        rw [hput]
        rfl
      rw [hpair]
      rcases ih hshows with ⟨hnone, other, hmem, hlong⟩ | ⟨disk'', hfold, hshows'⟩
      · exact .inl ⟨hnone, other, List.mem_cons_of_mem _ hmem, hlong⟩
      · exact .inr ⟨disk'', hfold, hshows'⟩

/-- The entries come in any order. -/
theorem find_iterate (d : Dict String V) (key : String) :
    Dict.find key (e.iterate d) = d.get? key := by
  have hperm := e.iterate_perm d
  have hnodup : ((e.iterate d).map Prod.fst).Nodup := (hperm.map Prod.fst).nodup_iff.2 d.nodup
  apply Option.ext
  intro value
  show Dict.find key (e.iterate d) = some value ↔ d.get? key = some value
  rw [← Dict.mem_iff_find hnodup, hperm.mem_iff]
  exact Dict.mem_iff_find d.nodup

theorem putAll_iterate (d : Dict String V) : putAll (e.iterate d) (fun _ => none) = d.get? := by
  funext key
  have hnodup : ((e.iterate d).map Prod.fst).Nodup :=
    ((e.iterate_perm d).map Prod.fst).nodup_iff.2 d.nodup
  rw [putAll_eq hnodup, find_iterate, Option.or_none]

theorem shows_nextPowerOfTwo (n : Nat) :
    (DiskMap.new (nextPowerOfTwo (max n 16))).Shows e fun _ => none := by
  apply DiskMap.shows_new
  have hle := Nat.le_pow_clog (show 1 < 2 by omega) (max n 16)
  by_contra hzero
  have hclog : Nat.clog 2 (max n 16) = 0 := by omega
  rw [hclog] at hle
  omega

namespace SpillMap

/-- Whether in memory or on the disk, the map is a plain one. -/
inductive Shows (e : Setting V) (m : SpillMap V) (f : Plain V) : Prop where
  | memory (hnone : m.disk = none) (hshows : ∀ key, m.memory.get? key = f key)
  | disk (disk : DiskMap) (hsome : m.disk = some disk) (hshows : disk.Shows e f)

variable {m : SpillMap V} {f : Plain V}

theorem shows_empty : (empty : SpillMap V).Shows e fun _ => none :=
  .memory rfl fun _ => rfl

theorem Shows.spill (h : m.Shows e f) :
    m.spill e = none ∧ (∃ pair, f pair.1 = some pair.2 ∧ TooLong e pair) ∨
      ∃ m', m.spill e = some m' ∧ m'.Shows e f := by
  unfold SpillMap.spill
  split_ifs with hstays
  · exact .inr ⟨m, rfl, h⟩
  · cases h with
    | disk disk hsome _ =>
      rw [hsome] at hstays
      exact absurd rfl hstays
    | memory _ hshows =>
      have hf : m.memory.get? = f := funext hshows
      rcases putPairs_spec (e.iterate m.memory)
        (shows_nextPowerOfTwo (m.memory.entries.length * 2)) with
        ⟨hnone, pair, hmem, hlong⟩ | ⟨disk, hfold, hdisk⟩
      · refine .inl ⟨?_, pair, ?_, hlong⟩
        · rw [hnone]
          rfl
        · rw [← hshows]
          exact Dict.mem_entries.1 ((e.iterate_perm m.memory).mem_iff.1 hmem)
      · rw [putAll_iterate, hf] at hdisk
        refine .inr ⟨⟨∅, m.bytes, some disk⟩, ?_, .disk disk rfl hdisk⟩
        rw [hfold]
        rfl

theorem shows_insert (hnone : m.disk = none) (hshows : ∀ key, m.memory.get? key = f key)
    (key : String) (value : V) :
    (m.insert e key value).Shows e (Function.update f key (some value)) := by
  refine .memory hnone fun key' => ?_
  show (m.memory.set key value).get? key' = _
  rw [Dict.get?_set, Function.update_apply, hshows]

/-- One call: the answer of a plain map, or an error for too long a record. -/
theorem Shows.call (h : m.Shows e f) (call : Call V) :
    m.call e call = none ∧ (∃ pair, (f.result call pair.1 = some pair.2 ∨ call.pair = some pair) ∧
        TooLong e pair) ∨
      ∃ m', m.call e call = some (f.answer call, m') ∧ m'.Shows e (f.result call) := by
  cases h with
  | disk disk hsome hshows =>
    cases call with
    | get key =>
      obtain ⟨disk', hget, hshows'⟩ := hshows.get key
      refine .inr ⟨{ m with disk := some disk' }, ?_, .disk disk' rfl hshows'⟩
      unfold SpillMap.call SpillMap.get
      simp only [hsome, hget]
      rfl
    | put key value =>
      rcases hshows.put key value false with ⟨hnone, hlong⟩ | ⟨disk', hput, hshows'⟩
      · refine .inl ⟨?_, (key, value), .inr rfl, hlong⟩
        unfold SpillMap.call SpillMap.put
        simp only [hsome, hnone]
        rfl
      · refine .inr ⟨{ m with disk := some disk' }, ?_, .disk disk' rfl hshows'⟩
        unfold SpillMap.call SpillMap.put
        simp only [hsome, hput]
        rfl
    | insertNew key value =>
      rcases hshows.put key value true with ⟨hnone, hlong⟩ | ⟨disk', hput, hshows'⟩
      · refine .inl ⟨?_, (key, value), .inr rfl, hlong⟩
        unfold SpillMap.call SpillMap.insertNew
        simp only [hsome, hnone]
        rfl
      · refine .inr ⟨{ m with disk := some disk' }, ?_, .disk disk' rfl hshows'⟩
        unfold SpillMap.call SpillMap.insertNew
        simp only [hsome, hput]
        rfl
  | memory hnone hshows =>
    cases call with
    | get key =>
      refine .inr ⟨m, ?_, .memory hnone hshows⟩
      unfold SpillMap.call SpillMap.get
      simp only [hnone, hshows]
      rfl
    | put key value =>
      have hcall : m.call e (.put key value) =
          ((m.insert e key value).spill e).map fun m => (.done, m) := by
        unfold SpillMap.call SpillMap.put
        simp only [hnone]
      rw [hcall]
      rcases (shows_insert (e := e) hnone hshows key value).spill with
        ⟨hfail, pair, hpair, hlong⟩ | ⟨m', hspill, hshows'⟩
      · exact .inl ⟨by rw [hfail]; rfl, pair, .inl hpair, hlong⟩
      · exact .inr ⟨m', by rw [hspill]; rfl, hshows'⟩
    | insertNew key value =>
      have hcall : m.call e (.insertNew key value) =
          if (f key).isSome then (m.spill e).map fun m => (.inserted false, m)
          else ((m.insert e key value).spill e).map fun m => (.inserted true, m) := by
        unfold SpillMap.call SpillMap.insertNew
        simp only [hnone, hshows]
        split_ifs <;> rw [Option.map_map] <;> rfl
      have hresult : f.result (.insertNew key value) =
          if (f key).isSome then f else Function.update f key (some value) := rfl
      have hanswer : f.answer (.insertNew key value) = .inserted (f key).isNone := rfl
      rw [hcall, hresult, hanswer]
      cases hkey : f key with
      | some old =>
        rw [Option.isSome_some, if_pos rfl, if_pos rfl]
        rcases (Shows.memory hnone hshows : m.Shows e f).spill with
          ⟨hfail, pair, hpair, hlong⟩ | ⟨m', hspill, hshows'⟩
        · exact .inl ⟨by rw [hfail]; rfl, pair, .inl hpair, hlong⟩
        · exact .inr ⟨m', by rw [hspill]; rfl, hshows'⟩
      | none =>
        rw [Option.isSome_none, if_neg Bool.false_ne_true, if_neg Bool.false_ne_true]
        rcases (shows_insert (e := e) hnone hshows key value).spill with
          ⟨hfail, pair, hpair, hlong⟩ | ⟨m', hspill, hshows'⟩
        · exact .inl ⟨by rw [hfail]; rfl, pair, .inl hpair, hlong⟩
        · exact .inr ⟨m', by rw [hspill]; rfl, hshows'⟩

theorem Shows.run (h : m.Shows e f) (calls : List (Call V)) :
    SpillMap.run e calls m = none ∧
        (∃ pair, (f pair.1 = some pair.2 ∨ ∃ call ∈ calls, call.pair = some pair) ∧
          TooLong e pair) ∨
      ∃ m', SpillMap.run e calls m = some (Plain.answers calls f, m') ∧
        m'.Shows e (Plain.results calls f) := by
  induction calls generalizing m f with
  | nil => exact .inr ⟨m, rfl, h⟩
  | cons call calls ih =>
    have horigin : ∀ pair : String × V, f.result call pair.1 = some pair.2 →
        f pair.1 = some pair.2 ∨ ∃ other ∈ call :: calls, other.pair = some pair := by
      intro pair hpair
      rcases Plain.result_eq_some hpair with hold | hnew
      · exact .inl hold
      · exact .inr ⟨call, List.mem_cons_self, hnew⟩
    unfold SpillMap.run
    rcases h.call call with ⟨hnone, pair, hpair, hlong⟩ | ⟨m', hcall, hshows⟩
    · refine .inl ⟨by rw [hnone]; rfl, pair, ?_, hlong⟩
      rcases hpair with hpair | hpair
      · exact horigin pair hpair
      · exact .inr ⟨call, List.mem_cons_self, hpair⟩
    · rw [hcall, Option.bind_some]
      rcases ih hshows with ⟨hnone, pair, hpair, hlong⟩ | ⟨m'', hrun, hshows'⟩
      · refine .inl ⟨by rw [hnone]; rfl, pair, ?_, hlong⟩
        rcases hpair with hpair | ⟨other, hmem, hpair⟩
        · exact horigin pair hpair
        · exact .inr ⟨other, List.mem_cons_of_mem _ hmem, hpair⟩
      · exact .inr ⟨m'', by rw [hrun]; rfl, hshows'⟩

end SpillMap

end Sunpack.Scratch
