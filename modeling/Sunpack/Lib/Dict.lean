import Mathlib.Data.List.Basic
import Mathlib.Data.List.Nodup

/-!
# Insertion-ordered dictionaries

A `Dict` maps keys to values and remembers the order in which its keys first arrived: setting a key
that is already there keeps its place. `count` counts the entries with a property; the rules for it
are what reference counting rests on.
-/

namespace Sunpack.Lib

universe u v

variable {K : Type u} {V : Type v}

structure Dict (K : Type u) (V : Type v) where
  entries : List (K × V)
  nodup : (entries.map Prod.fst).Nodup

namespace Dict

def empty : Dict K V := ⟨[], List.nodup_nil⟩

instance : EmptyCollection (Dict K V) := ⟨empty⟩

def keys (d : Dict K V) : List K := d.entries.map Prod.fst

def values (d : Dict K V) : List V := d.entries.map Prod.snd

variable [DecidableEq K]

/-! ## Entry lists -/

def find (k : K) : List (K × V) → Option V
  | [] => none
  | e :: es => if e.1 = k then some e.2 else find k es

def put (k : K) (v : V) : List (K × V) → List (K × V)
  | [] => [(k, v)]
  | e :: es => if e.1 = k then (k, v) :: es else e :: put k v es

def drop (k : K) : List (K × V) → List (K × V)
  | [] => []
  | e :: es => if e.1 = k then es else e :: drop k es

theorem find_eq_none {k : K} {es : List (K × V)} : find k es = none ↔ k ∉ es.map Prod.fst := by
  induction es with
  | nil => simp [find]
  | cons e es ih =>
    rw [find]
    split_ifs with h
    · simp [h]
    · simp [ih, Ne.symm h]

theorem mem_put {k k' : K} {v : V} {es : List (K × V)} :
    k' ∈ (put k v es).map Prod.fst ↔ k' = k ∨ k' ∈ es.map Prod.fst := by
  induction es with
  | nil => simp [put]
  | cons e es ih =>
    rw [put]
    split_ifs with h
    · simp [h]
    · rw [List.map_cons, List.mem_cons, ih, List.map_cons, List.mem_cons]
      exact or_left_comm

theorem drop_sublist (k : K) (es : List (K × V)) : (drop k es).Sublist es := by
  induction es with
  | nil => exact List.Sublist.refl _
  | cons e es ih =>
    rw [drop]
    split_ifs
    · exact List.sublist_cons_self _ _
    · exact ih.cons_cons _

theorem mem_of_mem_put {k : K} {v : V} {es : List (K × V)} {e : K × V} (h : e ∈ put k v es) :
    e = (k, v) ∨ e ∈ es := by
  induction es with
  | nil => exact .inl (List.mem_singleton.1 h)
  | cons e' es ih =>
    rw [put] at h
    split_ifs at h
    · exact (List.mem_cons.1 h).imp id (List.mem_cons_of_mem _)
    · rcases List.mem_cons.1 h with rfl | h
      · exact .inr List.mem_cons_self
      · exact (ih h).imp id (List.mem_cons_of_mem _)

theorem mem_of_find {k : K} {v : V} {es : List (K × V)} (h : find k es = some v) : (k, v) ∈ es := by
  induction es with
  | nil => exact absurd h (by simp [find])
  | cons e es ih =>
    rw [find] at h
    split_ifs at h with he
    · rw [← he, ← Option.some.inj h]
      exact List.mem_cons_self
    · exact List.mem_cons_of_mem _ (ih h)

theorem put_nodup {k : K} {v : V} {es : List (K × V)} (h : (es.map Prod.fst).Nodup) :
    ((put k v es).map Prod.fst).Nodup := by
  induction es with
  | nil => simp [put]
  | cons e es ih =>
    rw [List.map_cons, List.nodup_cons] at h
    rw [put]
    split_ifs with hk
    · rw [List.map_cons, List.nodup_cons]
      exact ⟨hk ▸ h.1, h.2⟩
    · rw [List.map_cons, List.nodup_cons, mem_put]
      refine ⟨?_, ih h.2⟩
      rintro (heq | hmem)
      · exact hk heq
      · exact h.1 hmem

theorem find_put (k k' : K) (v : V) (es : List (K × V)) :
    find k' (put k v es) = if k' = k then some v else find k' es := by
  induction es with
  | nil => simp [put, find, eq_comm]
  | cons e es ih =>
    rw [put]
    split_ifs with h hk hk
    · simp [find, hk]
    · simp [find, h, Ne.symm hk]
    · rw [find, ih, if_pos hk, if_neg]
      rw [hk]
      exact h
    · rw [find, find, ih, if_neg hk]

theorem find_drop (k k' : K) {es : List (K × V)} (h : (es.map Prod.fst).Nodup) :
    find k' (drop k es) = if k' = k then none else find k' es := by
  induction es with
  | nil => simp [drop, find]
  | cons e es ih =>
    rw [List.map_cons, List.nodup_cons] at h
    rw [drop]
    split_ifs with he hk hk
    · rw [find_eq_none, hk, ← he]
      exact h.1
    · rw [find, if_neg]
      rw [he]
      exact Ne.symm hk
    · rw [find, ih h.2, if_pos hk, if_neg]
      rw [hk]
      exact he
    · rw [find, find, ih h.2, if_neg hk]

theorem mem_iff_find {k : K} {v : V} {es : List (K × V)} (h : (es.map Prod.fst).Nodup) :
    (k, v) ∈ es ↔ find k es = some v := by
  induction es with
  | nil => simp [find]
  | cons e es ih =>
    rw [List.map_cons, List.nodup_cons] at h
    rw [find, List.mem_cons]
    split_ifs with he
    · constructor
      · rintro (rfl | hmem)
        · rfl
        · exact absurd (List.mem_map_of_mem hmem) (he ▸ h.1)
      · intro hv
        exact .inl (Prod.ext he.symm (Option.some.inj hv).symm)
    · rw [← ih h.2]
      constructor
      · rintro (rfl | hmem)
        · exact absurd rfl he
        · exact hmem
      · exact .inr

/-! ## Dictionaries -/

def get? (d : Dict K V) (k : K) : Option V := find k d.entries

def set (d : Dict K V) (k : K) (v : V) : Dict K V := ⟨put k v d.entries, put_nodup d.nodup⟩

def erase (d : Dict K V) (k : K) : Dict K V :=
  ⟨drop k d.entries, d.nodup.sublist ((drop_sublist k d.entries).map Prod.fst)⟩

/-- The entries whose keys have a property, in their order. -/
def filter (d : Dict K V) (p : K → Bool) : Dict K V :=
  ⟨d.entries.filter fun e => p e.1, d.nodup.sublist (List.filter_sublist.map Prod.fst)⟩

@[simp] theorem get?_empty (k : K) : (∅ : Dict K V).get? k = none := rfl

theorem get?_set (d : Dict K V) (k k' : K) (v : V) :
    (d.set k v).get? k' = if k' = k then some v else d.get? k' :=
  find_put k k' v d.entries

theorem get?_erase (d : Dict K V) (k k' : K) :
    (d.erase k).get? k' = if k' = k then none else d.get? k' :=
  find_drop k k' d.nodup

@[simp] theorem get?_set_self (d : Dict K V) (k : K) (v : V) : (d.set k v).get? k = some v := by
  rw [get?_set, if_pos rfl]

theorem get?_set_of_ne (d : Dict K V) {k k' : K} (h : k' ≠ k) (v : V) :
    (d.set k v).get? k' = d.get? k' := by
  rw [get?_set, if_neg h]

@[simp] theorem get?_erase_self (d : Dict K V) (k : K) : (d.erase k).get? k = none := by
  rw [get?_erase, if_pos rfl]

theorem get?_erase_of_ne (d : Dict K V) {k k' : K} (h : k' ≠ k) :
    (d.erase k).get? k' = d.get? k' := by
  rw [get?_erase, if_neg h]

theorem get?_filter (d : Dict K V) (p : K → Bool) (k : K) :
    (d.filter p).get? k = if p k then d.get? k else none := by
  unfold get? filter
  simp only
  induction d.entries with
  | nil => simp [find]
  | cons e es ih =>
    rw [List.filter_cons]
    by_cases hp : p e.1 = true
    · rw [if_pos hp, find, find, ih]
      split_ifs with he hk hk
      · rfl
      · exact absurd (he ▸ hp) hk
      · rfl
      · rfl
    · rw [if_neg hp, ih, find]
      split_ifs with hk he
      · exact absurd (he ▸ hk) hp
      · rfl
      · rfl

omit [DecidableEq K] in
theorem eq_of_entries {d d' : Dict K V} (h : d.entries = d'.entries) : d = d' := by
  obtain ⟨es, _⟩ := d
  obtain ⟨es', _⟩ := d'
  obtain rfl : es = es' := h
  rfl

theorem erase_eq_filter (d : Dict K V) (k : K) : d.erase k = d.filter (· ≠ k) := by
  apply eq_of_entries
  have hdrop (es : List (K × V)) (h : (es.map Prod.fst).Nodup) :
      Dict.drop k es = es.filter fun e => e.1 ≠ k := by
    induction es with
    | nil => rfl
    | cons e es ih =>
      rw [List.map_cons, List.nodup_cons] at h
      rw [Dict.drop]
      split_ifs with hk
      · rw [List.filter_cons_of_neg (by simpa using hk), eq_comm, List.filter_eq_self]
        intro e' he'
        rw [decide_eq_true_eq, ← hk]
        rintro heq
        exact h.1 (heq ▸ List.mem_map_of_mem he')
      · rw [List.filter_cons_of_pos (by simpa using hk), ih h.2]
  exact hdrop d.entries d.nodup

omit [DecidableEq K] in
theorem filter_filter (d : Dict K V) (p q : K → Bool) :
    (d.filter p).filter q = d.filter fun k => p k && q k := by
  apply eq_of_entries
  simp only [Dict.filter, List.filter_filter, Bool.and_comm]

theorem put_put (k : K) (v v' : V) (es : List (K × V)) : put k v' (put k v es) = put k v' es := by
  induction es with
  | nil => simp [put]
  | cons e es ih =>
    rw [put, put]
    split_ifs with h
    · rw [put, if_pos rfl]
    · rw [put, if_neg h, ih]

theorem set_set (d : Dict K V) (k : K) (v v' : V) : (d.set k v).set k v' = d.set k v' := by
  simp only [set, put_put]

theorem mem_entries {d : Dict K V} {k : K} {v : V} : (k, v) ∈ d.entries ↔ d.get? k = some v :=
  mem_iff_find d.nodup

theorem mem_keys {d : Dict K V} {k : K} : k ∈ d.keys ↔ d.get? k ≠ none := by
  rw [get?, ne_eq, find_eq_none, not_not, keys]

theorem get?_eq_none {d : Dict K V} {k : K} : d.get? k = none ↔ k ∉ d.keys := find_eq_none

theorem put_new {k : K} {v : V} {es : List (K × V)} (h : find k es = none) :
    put k v es = es ++ [(k, v)] := by
  induction es with
  | nil => rfl
  | cons e es ih =>
    rw [find] at h
    split_ifs at h with he
    rw [put, if_neg he, ih h, List.cons_append]

/-- A new key goes to the end. -/
theorem entries_set_new {d : Dict K V} {k : K} (h : d.get? k = none) (v : V) :
    (d.set k v).entries = d.entries ++ [(k, v)] :=
  put_new h

theorem keys_set_new {d : Dict K V} {k : K} (h : d.get? k = none) (v : V) :
    (d.set k v).keys = d.keys ++ [k] := by
  rw [keys, entries_set_new h, List.map_append]
  rfl

theorem values_set_new {d : Dict K V} {k : K} (h : d.get? k = none) (v : V) :
    (d.set k v).values = d.values ++ [v] := by
  rw [values, entries_set_new h, List.map_append]
  rfl

/-! ## Counting -/

/-- The entry under a key has the property. -/
def holds (d : Dict K V) (p : K → V → Bool) (k : K) : Bool := (d.get? k).any (p k)

def count (d : Dict K V) (p : K → V → Bool) : Nat := d.entries.countP fun e => p e.1 e.2

theorem countP_put {k : K} {v : V} (p : K → V → Bool) (es : List (K × V)) :
    (put k v es).countP (fun e => p e.1 e.2) + ((find k es).any (p k)).toNat =
      es.countP (fun e => p e.1 e.2) + (p k v).toNat := by
  induction es with
  | nil => cases h : p k v <;> simp [put, find, h]
  | cons e es ih =>
    rw [put, find]
    split_ifs with h
    · subst h
      rw [List.countP_cons, List.countP_cons, Option.any_some]
      cases p e.1 v <;> cases p e.1 e.2 <;> simp
    · rw [List.countP_cons, List.countP_cons]
      omega

theorem countP_drop (k : K) (p : K → V → Bool) (es : List (K × V)) :
    (drop k es).countP (fun e => p e.1 e.2) + ((find k es).any (p k)).toNat =
      es.countP (fun e => p e.1 e.2) := by
  induction es with
  | nil => rfl
  | cons e es ih =>
    rw [drop, find]
    split_ifs with h
    · subst h
      rw [List.countP_cons, Option.any_some]
      cases p e.1 e.2 <;> simp
    · rw [List.countP_cons, List.countP_cons]
      omega

theorem count_set (d : Dict K V) (p : K → V → Bool) (k : K) (v : V) :
    (d.set k v).count p + (d.holds p k).toNat = d.count p + (p k v).toNat :=
  countP_put p d.entries

theorem count_erase (d : Dict K V) (p : K → V → Bool) (k : K) :
    (d.erase k).count p + (d.holds p k).toNat = d.count p :=
  countP_drop k p d.entries

theorem count_eq_zero {d : Dict K V} {p : K → V → Bool} :
    d.count p = 0 ↔ ∀ k v, d.get? k = some v → p k v = false := by
  rw [count, List.countP_eq_zero]
  constructor
  · intro h k v hv
    exact Bool.eq_false_iff.2 (h (k, v) (mem_entries.2 hv))
  · rintro h ⟨k, v⟩ hmem
    exact Bool.eq_false_iff.1 (h k v (mem_entries.1 hmem))

/-! ## Taking one entry out -/

theorem put_perm (k : K) (v : V) (es : List (K × V)) : (put k v es).Perm ((k, v) :: drop k es) := by
  induction es with
  | nil => exact List.Perm.refl _
  | cons e es ih =>
    rw [put, drop]
    split_ifs with h
    · exact List.Perm.refl _
    · exact (ih.cons e).trans (List.Perm.swap _ _ _)

theorem find_perm {k : K} {v : V} {es : List (K × V)} (h : find k es = some v) :
    es.Perm ((k, v) :: drop k es) := by
  induction es with
  | nil => exact absurd h (by simp [find])
  | cons e es ih =>
    rw [find] at h
    rw [drop]
    split_ifs at h ⊢ with hk
    · obtain rfl := Option.some.inj h
      rw [← hk]
    · exact ((ih h).cons e).trans (List.Perm.swap _ _ _)

theorem drop_of_find {k : K} {es : List (K × V)} (h : find k es = none) : drop k es = es := by
  induction es with
  | nil => rfl
  | cons e es ih =>
    rw [find] at h
    split_ifs at h with hk
    rw [drop, if_neg hk, ih h]

theorem entries_set_perm (d : Dict K V) (k : K) (v : V) :
    (d.set k v).entries.Perm ((k, v) :: (d.erase k).entries) :=
  put_perm k v d.entries

theorem entries_perm {d : Dict K V} {k : K} {v : V} (h : d.get? k = some v) :
    d.entries.Perm ((k, v) :: (d.erase k).entries) :=
  find_perm h

theorem erase_of_get?_none {d : Dict K V} {k : K} (h : d.get? k = none) :
    (d.erase k).entries = d.entries :=
  drop_of_find h

/-! ## Groups -/

/-- `entry(k).or_default().push(v)`. -/
def push {W : Type v} (d : Dict K (List W)) (k : K) (v : W) : Dict K (List W) :=
  d.set k ((d.get? k).getD [] ++ [v])

/-- `entry(k).or_default()`. -/
def orDefault {W : Type v} (d : Dict K (List W)) (k : K) : Dict K (List W) :=
  d.set k ((d.get? k).getD [])

theorem get?_orDefault {W : Type v} (d : Dict K (List W)) (k k' : K) :
    (d.orDefault k).get? k' = if k' = k then some ((d.get? k').getD []) else d.get? k' := by
  rw [orDefault, get?_set]
  split_ifs with h
  · rw [h]
  · rfl

theorem get?_foldl_orDefault {W : Type v} (ks : List K) (d : Dict K (List W)) (k : K) :
    (ks.foldl orDefault d).get? k =
      if k ∈ ks then some ((d.get? k).getD []) else d.get? k := by
  induction ks generalizing d with
  | nil => rfl
  | cons k' ks ih =>
    rw [List.foldl_cons, ih, get?_orDefault]
    by_cases hk : k = k'
    · rw [if_pos hk, if_pos (List.mem_cons.2 (.inl hk)), Option.getD_some, ite_self]
    · rw [if_neg hk]
      by_cases hmem : k ∈ ks
      · rw [if_pos hmem, if_pos (List.mem_cons_of_mem _ hmem)]
      · rw [if_neg hmem, if_neg]
        exact fun hcons => (List.mem_cons.1 hcons).elim hk hmem

/-! ## Indexes -/

/-- The keys of a list with their places, counted from a start. -/
def indexFrom (d : Dict K Nat) : List K → Nat → Dict K Nat
  | [], _ => d
  | k :: ks, start => indexFrom (d.set k start) ks (start + 1)

theorem get?_indexFrom_of_notMem {ks : List K} {k : K} (h : k ∉ ks) (d : Dict K Nat) (start : Nat) :
    (d.indexFrom ks start).get? k = d.get? k := by
  induction ks generalizing d start with
  | nil => rfl
  | cons k' ks ih =>
    rw [List.mem_cons, not_or] at h
    rw [indexFrom, ih h.2, get?_set_of_ne _ h.1]

theorem get?_indexFrom {ks : List K} (hnodup : ks.Nodup) {i : Nat} {k : K} (h : ks[i]? = some k)
    (d : Dict K Nat) (start : Nat) : (d.indexFrom ks start).get? k = some (start + i) := by
  induction ks generalizing d start i with
  | nil => exact absurd h (by simp)
  | cons k' ks ih =>
    rw [List.nodup_cons] at hnodup
    cases i with
    | zero =>
      obtain rfl := Option.some.inj h
      rw [indexFrom, get?_indexFrom_of_notMem hnodup.1, get?_set_self]
      rfl
    | succ i =>
      rw [indexFrom, ih hnodup.2 h]
      congr 1
      omega

/-- A key has the index where it stands. -/
theorem get?_indexFrom_iff {ks : List K} (hnodup : ks.Nodup) {k : K} {i : Nat} :
    ((∅ : Dict K Nat).indexFrom ks 0).get? k = some i ↔ ks[i]? = some k := by
  constructor
  · intro h
    by_cases hmem : k ∈ ks
    · obtain ⟨j, hj⟩ := List.mem_iff_getElem?.1 hmem
      rw [get?_indexFrom hnodup hj, Nat.zero_add] at h
      rwa [← Option.some.inj h]
    · rw [get?_indexFrom_of_notMem hmem] at h
      exact absurd h (by simp)
  · intro h
    rw [get?_indexFrom hnodup h, Nat.zero_add]

/-- The values of each key, in order. -/
def group {W : Type v} (pairs : List (K × W)) : Dict K (List W) :=
  pairs.foldl (fun d p => d.push p.1 p.2) ∅

theorem getD_foldl_push {W : Type v} (pairs : List (K × W)) (d : Dict K (List W)) (k : K) :
    ((pairs.foldl (fun d p => d.push p.1 p.2) d).get? k).getD [] =
      (d.get? k).getD [] ++ (pairs.filter fun p => p.1 = k).map Prod.snd := by
  induction pairs generalizing d with
  | nil => simp
  | cons p pairs ih =>
    rw [List.foldl_cons, ih, push, get?_set]
    by_cases hk : k = p.1
    · subst hk
      simp
    · rw [if_neg hk, List.filter_cons_of_neg (by simpa using Ne.symm hk)]

theorem getD_group {W : Type v} (pairs : List (K × W)) (k : K) :
    ((group pairs).get? k).getD [] = (pairs.filter fun p => p.1 = k).map Prod.snd := by
  rw [group, getD_foldl_push]
  simp

end Dict

end Sunpack.Lib
