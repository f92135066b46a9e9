import Sunpack.PathKeys
import Sunpack.Lib.Dict

/-!
# Directory entries

The file system as postprocessing sees it: what stands under which name in which directory. A
directory keeps its identity when its entry is moved, and everything below it moves along. A rename
is one step and never replaces; a directory is removed only if it is empty.
-/

namespace Sunpack.Postprocess

open Lib

/-- A directory, and the key of a name in it. -/
abbrev Location := Nat × Text

inductive Entry
  | file (content : Nat)
  | directory (id : Nat)
deriving DecidableEq

abbrev Entries := Dict Location Entry

/-- An error of the system; `is_name_collision` and `ErrorKind::NotFound` are asked of it. -/
structure IoError where
  text : Text
  isNameCollision : Bool := false
  isNotFound : Bool := false
  said : text ≠ []

namespace IoError

def alreadyExists : IoError where
  text := ['e', 'x', 'i', 's', 't', 's']
  isNameCollision := true
  said := List.cons_ne_nil _ _

def notFound : IoError where
  text := ['m', 'i', 's', 's', 'i', 'n', 'g']
  isNotFound := true
  said := List.cons_ne_nil _ _

def notEmpty : IoError where
  text := ['f', 'u', 'l', 'l']
  said := List.cons_ne_nil _ _

def notDirectory : IoError where
  text := ['f', 'i', 'l', 'e']
  said := List.cons_ne_nil _ _

end IoError

namespace Entries

def isEmpty (s : Entries) (id : Nat) : Bool := s.entries.all fun entry => entry.1.1 ≠ id

/-- `rename_no_replace`, if the system does not fail. -/
def rename (s : Entries) (source destination : Location) : Except IoError Entries :=
  match s.get? source with
  | none => .error .notFound
  | some entry =>
    if (s.get? destination).isSome then .error .alreadyExists
    else .ok ((s.erase source).set destination entry)

/-- `fs::remove_dir`, if the system does not fail. -/
def removeDir (s : Entries) (location : Location) : Except IoError Entries :=
  match s.get? location with
  | none => .error .notFound
  | some (.file _) => .error .notDirectory
  | some (.directory id) =>
    if Entries.isEmpty s id then .ok (s.erase location) else .error .notEmpty

/-- What others put where nothing is. -/
def arrive (s : Entries) (arrivals : List (Location × Entry)) : Entries :=
  arrivals.foldl (fun s arrival =>
    if (s.get? arrival.1).isSome then s else s.set arrival.1 arrival.2) s

theorem rename_ok {s s' : Entries} {source destination : Location}
    (h : rename s source destination = .ok s') : ∃ entry, s.get? source = some entry ∧
      s.get? destination = none ∧ ∀ l, s'.get? l =
        if l = destination then some entry else if l = source then none else s.get? l := by
  unfold rename at h
  cases hget : s.get? source with
  | none =>
    rw [hget] at h
    cases h
  | some entry =>
    rw [hget] at h
    dsimp only at h
    split_ifs at h with hsome
    obtain rfl := Except.ok.inj h
    refine ⟨entry, rfl, Option.not_isSome_iff_eq_none.1 hsome, fun l => ?_⟩
    rw [Dict.get?_set, Dict.get?_erase]

theorem isEmpty_iff {s : Entries} {id : Nat} :
    Entries.isEmpty s id = true ↔ ∀ l entry, s.get? l = some entry → l.1 ≠ id := by
  unfold isEmpty
  rw [List.all_eq_true]
  constructor
  · intro h l entry hget
    exact of_decide_eq_true (h (l, entry) (Dict.mem_entries.2 hget))
  · rintro h ⟨l, entry⟩ hmem
    exact decide_eq_true (h l entry (Dict.mem_entries.1 hmem))

theorem removeDir_ok {s s' : Entries} {location : Location}
    (h : removeDir s location = .ok s') : ∃ id, s.get? location = some (.directory id) ∧
      (∀ l entry, s.get? l = some entry → l.1 ≠ id) ∧
      ∀ l, s'.get? l = if l = location then none else s.get? l := by
  unfold removeDir at h
  cases hget : s.get? location with
  | none =>
    rw [hget] at h
    cases h
  | some entry =>
    rw [hget] at h
    cases entry with
    | file content => cases h
    | directory id =>
      dsimp only at h
      split_ifs at h with hempty
      obtain rfl := Except.ok.inj h
      exact ⟨id, rfl, isEmpty_iff.1 hempty, fun l => Dict.get?_erase s location l⟩

/-- Arrivals change nothing that is there, and what is new is one of them. -/
theorem arrive_spec (s : Entries) (arrivals : List (Location × Entry)) :
    (∀ l entry, s.get? l = some entry → (arrive s arrivals).get? l = some entry) ∧
      ∀ l entry, (arrive s arrivals).get? l = some entry → s.get? l = some entry ∨
        s.get? l = none ∧ (l, entry) ∈ arrivals := by
  induction arrivals generalizing s with
  | nil => exact ⟨fun l entry h => h, fun l entry h => .inl h⟩
  | cons arrival arrivals ih =>
    obtain ⟨hkept, hnew⟩ := ih (if (s.get? arrival.1).isSome then s else s.set arrival.1 arrival.2)
    refine ⟨fun l entry hget => hkept l entry ?_, fun l entry hget => ?_⟩
    · split_ifs with hsome
      · exact hget
      · have hne : l ≠ arrival.1 := by
          rintro rfl
          rw [hget] at hsome
          exact hsome rfl
        rw [Dict.get?_set_of_ne _ hne, hget]
    · rcases hnew l entry hget with hold | ⟨hnone, hmem⟩
      · split_ifs at hold with hsome
        · exact .inl hold
        · rw [Dict.get?_set] at hold
          split_ifs at hold with heq
          · obtain rfl := Option.some.inj hold
            subst heq
            exact .inr ⟨Option.not_isSome_iff_eq_none.1 hsome, List.mem_cons_self⟩
          · exact .inl hold
      · split_ifs at hnone with hsome
        · exact .inr ⟨hnone, List.mem_cons_of_mem _ hmem⟩
        · rw [Dict.get?_set] at hnone
          split_ifs at hnone with heq
          exact .inr ⟨hnone, List.mem_cons_of_mem _ hmem⟩

end Entries

end Sunpack.Postprocess
