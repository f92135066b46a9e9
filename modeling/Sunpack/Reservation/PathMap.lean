import Sunpack.PathKeys
import Sunpack.Lib.Trie

/-!
# Maps from path keys

`path_map.py`: exact lookups in a dictionary, ancestors and subtrees in a trie of the components.
A key is the list of the components of a normalised path key, the drive first, so normalising it
once more does nothing. `pop_under` and `relocate` are not used by the reservations.
-/

namespace Sunpack.Reservation

open Lib

abbrev Key := List Text

/-- Membership of keys is decided with this instance everywhere. -/
instance : LawfulBEq Key := inferInstance

structure PathMap (V : Type) where
  values : Dict Key (Nat × V) := ∅
  root : Trie Text Key := .empty
  sequence : Nat := 0

namespace PathMap

variable {V : Type}

def get? (m : PathMap V) (key : Key) : Option V := (m.values.get? key).map (·.2)

/-- Values keep their insertion order. -/
def set (m : PathMap V) (key : Key) (value : V) : PathMap V :=
  match m.values.get? key with
  | some previous => { m with values := m.values.set key (previous.1, value) }
  | none =>
    { values := m.values.set key (m.sequence + 1, value)
      root := m.root.insert key key
      sequence := m.sequence + 1 }

def delete (m : PathMap V) (key : Key) : Except String (PathMap V) :=
  match m.values.get? key with
  | none => .error "KeyError"
  | some _ =>
    let values := m.values.erase key
    if values.keys.isEmpty then .ok {}
    else .ok { m with values := values, root := m.root.erase key }

/-- The stored ancestors of a key, the key included, the root first. -/
def ancestors (m : PathMap V) (key : Key) : List (Key × V) :=
  (m.root.along key).filterMap fun stored => (m.get? stored).map fun value => (stored, value)

def hasUnder (m : PathMap V) (key : Key) : Bool := m.root.hasUnder key

/-! ## The trie and the dictionary agree -/

structure Agrees (m : PathMap V) : Prop where
  pruned : m.root.Pruned
  stored : ∀ key, m.root.get key = if (m.get? key).isSome then some key else none
  nonempty : m.get? [] = none

theorem agrees_empty : Agrees ({} : PathMap V) where
  pruned := Trie.pruned_empty
  stored key := Trie.get_empty key
  nonempty := rfl

variable {m : PathMap V}

theorem get?_set (m : PathMap V) (key key' : Key) (value : V) :
    (m.set key value).get? key' = if key' = key then some value else m.get? key' := by
  unfold set get?
  split
  · rw [Dict.get?_set]
    split_ifs <;> rfl
  · rw [Dict.get?_set]
    split_ifs <;> rfl

theorem Agrees.set (h : m.Agrees) {key : Key} (hne : key ≠ []) (value : V) :
    (m.set key value).Agrees := by
  refine ⟨?_, fun key' => ?_, ?_⟩
  · unfold PathMap.set
    split
    · exact h.pruned
    · exact h.pruned.insert key key
  · rw [get?_set]
    unfold PathMap.set
    split
    · rename_i previous hprevious
      show m.root.get key' = _
      rw [h.stored]
      by_cases heq : key' = key
      · rw [if_pos heq, heq, get?, hprevious]
        rfl
      · rw [if_neg heq]
    · rw [Trie.get_insert, h.stored]
      by_cases heq : key' = key
      · rw [if_pos heq, if_pos heq, heq]
        rfl
      · rw [if_neg heq, if_neg heq]
  · rw [get?_set, if_neg (Ne.symm hne)]
    exact h.nonempty

theorem Agrees.delete (h : m.Agrees) {key : Key} {value : V} (hget : m.get? key = some value) :
    ∃ m', m.delete key = .ok m' ∧ m'.Agrees ∧
      ∀ key', m'.get? key' = if key' = key then none else m.get? key' := by
  obtain ⟨stored, hstored, rfl⟩ := Option.map_eq_some_iff.1 hget
  have hne : key ≠ [] := by
    rintro rfl
    rw [h.nonempty] at hget
    exact absurd hget (by simp)
  have hvalues (key' : Key) : ((m.values.erase key).get? key').map (·.2) =
      if key' = key then none else m.get? key' := by
    rw [Dict.get?_erase]
    split_ifs <;> rfl
  rw [PathMap.delete, hstored]
  simp only
  split_ifs with hempty
  · refine ⟨_, rfl, agrees_empty, fun key' => ?_⟩
    rw [← hvalues key']
    have hnone : (m.values.erase key).get? key' = none := by
      rw [Dict.get?_eq_none, List.isEmpty_iff.1 hempty]
      exact List.not_mem_nil
    rw [hnone]
    rfl
  · refine ⟨_, rfl, ⟨h.pruned.erase key, fun key' => ?_, ?_⟩, hvalues⟩
    · rw [get?, hvalues key']
      show (m.root.erase key).get key' = _
      rw [Trie.get_erase h.pruned, h.stored]
      split_ifs <;> simp_all
    · rw [get?, hvalues, if_neg (Ne.symm hne)]
      exact h.nonempty

theorem Agrees.mem_ancestors (h : m.Agrees) {key stored : Key} {value : V} :
    (stored, value) ∈ m.ancestors key ↔ stored <+: key ∧ m.get? stored = some value := by
  rw [ancestors, List.mem_filterMap]
  constructor
  · rintro ⟨k, hk, heq⟩
    obtain ⟨v, hv, hpair⟩ := Option.map_eq_some_iff.1 heq
    obtain ⟨rfl, rfl⟩ := Prod.mk.inj hpair
    obtain ⟨p, _, hpre, hget⟩ := Trie.mem_along.1 hk
    rw [h.stored] at hget
    split_ifs at hget
    obtain rfl := Option.some.inj hget
    exact ⟨hpre, hv⟩
  · rintro ⟨hpre, hget⟩
    refine ⟨stored, Trie.mem_along.2 ⟨stored, ?_, hpre, ?_⟩, by rw [hget]; rfl⟩
    · rintro rfl
      rw [h.nonempty] at hget
      exact absurd hget (by simp)
    · rw [h.stored, hget]
      rfl

theorem Agrees.hasUnder_iff (h : m.Agrees) {key : Key} :
    m.hasUnder key = true ↔ ∃ stored, key <+: stored ∧ m.get? stored ≠ none := by
  rw [hasUnder, h.pruned.hasUnder_iff]
  refine exists_congr fun stored => and_congr_right fun _ => ?_
  rw [h.stored]
  cases m.get? stored <;> simp

end PathMap

end Sunpack.Reservation
