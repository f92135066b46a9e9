import Mathlib
import Sunpack.Lib.Dict

/-!
# Counted indexes

A dictionary of counts holds a number for each key; a key that counts nothing has no entry. An index
is a dictionary of such rows, and a row without entries is left out (`Tight`). What an index counts
is given by a sum over the entries of another dictionary (`total`).
-/

namespace Sunpack.Lib.Dict

universe u v w

variable {K : Type u} {V : Type v} {W : Type w}

/-! ## Sums over the entries -/

def total (d : Dict K V) (f : V → Nat) : Nat := (d.values.map f).sum

@[simp] theorem total_empty (f : V → Nat) : (∅ : Dict K V).total f = 0 := rfl

section Total

variable [DecidableEq K] (d : Dict K V) (f : V → Nat)

theorem total_erase (k : K) : (d.erase k).total f + ((d.get? k).map f).getD 0 = d.total f := by
  cases h : d.get? k with
  | none =>
    rw [total, values, erase_of_get?_none h]
    rfl
  | some v =>
    have hperm := (((entries_perm h).map Prod.snd).map f).sum_eq
    rw [List.map_cons, List.map_cons, List.sum_cons] at hperm
    rw [Option.map_some, Option.getD_some, Nat.add_comm]
    exact hperm.symm

theorem total_set (k : K) (v : V) :
    (d.set k v).total f + ((d.get? k).map f).getD 0 = d.total f + f v := by
  have hperm := (((entries_set_perm d k v).map Prod.snd).map f).sum_eq
  rw [List.map_cons, List.map_cons, List.sum_cons] at hperm
  have htotal : (d.set k v).total f = f v + (d.erase k).total f := hperm
  have herase := d.total_erase f k
  omega

theorem total_set_new {k : K} (h : d.get? k = none) (v : V) :
    (d.set k v).total f = d.total f + f v := by
  have hset := d.total_set f k v
  rwa [h] at hset

theorem total_erase_of_get? {k : K} {v : V} (h : d.get? k = some v) :
    (d.erase k).total f + f v = d.total f := by
  have herase := d.total_erase f k
  rwa [h] at herase

theorem total_pos : 0 < d.total f ↔ ∃ k v, d.get? k = some v ∧ 0 < f v := by
  rw [total, List.sum_pos_iff_exists_pos_nat]
  constructor
  · rintro ⟨n, hn, hpos⟩
    obtain ⟨v, hv, rfl⟩ := List.mem_map.1 hn
    obtain ⟨e, he, rfl⟩ := List.mem_map.1 hv
    exact ⟨e.1, e.2, mem_entries.1 he, hpos⟩
  · rintro ⟨k, v, hget, hpos⟩
    have hmem : v ∈ d.values := List.mem_map_of_mem (mem_entries.2 hget)
    exact ⟨f v, List.mem_map_of_mem hmem, hpos⟩

end Total

/-! ## Counts -/

section Counts

variable [DecidableEq W]

def countOf (t : Dict W Nat) (x : W) : Nat := (t.get? x).getD 0

/-- No entry counts nothing. -/
def Positive (t : Dict W Nat) : Prop := ∀ x, t.get? x ≠ some 0

def inc (t : Dict W Nat) (x : W) : Dict W Nat := t.set x (t.countOf x + 1)

/-- `t[x] -= 1`, and the entry goes with its last one. There is no result without an entry. -/
def dec (t : Dict W Nat) (x : W) : Option (Dict W Nat) :=
  (t.get? x).map fun n => if n - 1 = 0 then t.erase x else t.set x (n - 1)

@[simp] theorem countOf_empty (x : W) : (∅ : Dict W Nat).countOf x = 0 := rfl

theorem positive_empty : Positive (∅ : Dict W Nat) := fun _ => by simp

variable {t t' : Dict W Nat}

theorem Positive.countOf_pos (h : t.Positive) {x : W} : 0 < t.countOf x ↔ t.get? x ≠ none := by
  have hpos := h x
  unfold countOf
  cases hx : t.get? x with
  | none => simp
  | some n =>
    rw [hx] at hpos
    have : n ≠ 0 := fun heq => hpos (by rw [heq])
    simp [Nat.pos_of_ne_zero this]

theorem Positive.get?_eq (h : t.Positive) {x : W} (hpos : 0 < t.countOf x) :
    t.get? x = some (t.countOf x) := by
  obtain ⟨n, hn⟩ := Option.ne_none_iff_exists'.1 (h.countOf_pos.1 hpos)
  rw [countOf, hn, Option.getD_some]

theorem countOf_inc (t : Dict W Nat) (x y : W) :
    (t.inc x).countOf y = t.countOf y + if y = x then 1 else 0 := by
  rw [inc, countOf, get?_set]
  split_ifs with h
  · rw [h, Option.getD_some]
  · rfl

theorem Positive.inc (h : t.Positive) (x : W) : (t.inc x).Positive := by
  intro y
  rw [Dict.inc, get?_set]
  split_ifs
  · simp
  · exact h y

theorem Positive.dec (h : t.Positive) {x : W} (hpos : 0 < t.countOf x) :
    ∃ t', t.dec x = some t' ∧ t'.Positive ∧
      ∀ y, t'.countOf y = t.countOf y - if y = x then 1 else 0 := by
  refine ⟨_, by rw [Dict.dec, h.get?_eq hpos, Option.map_some], ?_, ?_⟩
  · intro y
    split_ifs with hone
    · rw [get?_erase]
      split_ifs
      · simp
      · exact h y
    · rw [get?_set]
      split_ifs
      · rw [ne_eq, Option.some.injEq]
        exact hone
      · exact h y
  · intro y
    split_ifs with hone hy hy
    · rw [hy, countOf, get?_erase_self, Option.getD_none]
      exact hone.symm
    · rw [countOf, get?_erase_of_ne _ hy]
      rfl
    · rw [hy, countOf, get?_set_self, Option.getD_some]
    · rw [countOf, get?_set_of_ne _ hy]
      rfl

theorem Positive.foldl_inc (xs : List W) (h : t.Positive) : (xs.foldl Dict.inc t).Positive := by
  induction xs generalizing t with
  | nil => exact h
  | cons x xs ih => exact ih (h.inc x)

theorem countOf_foldl_inc [BEq W] [LawfulBEq W] (xs : List W) (t : Dict W Nat) (y : W) :
    (xs.foldl Dict.inc t).countOf y = t.countOf y + xs.count y := by
  induction xs generalizing t with
  | nil => rfl
  | cons x xs ih =>
    rw [List.foldl_cons, ih, countOf_inc, List.count_cons]
    by_cases h : x = y
    · simp [h]
      omega
    · simp [h, Ne.symm h]

end Counts

/-! ## Indexes -/

section Rows

variable [DecidableEq K]

def row (d : Dict K (Dict W Nat)) (k : K) : Dict W Nat := (d.get? k).getD ∅

theorem row_set (d : Dict K (Dict W Nat)) (k k' : K) (t : Dict W Nat) :
    (d.set k t).row k' = if k' = k then t else d.row k' := by
  rw [row, get?_set]
  split_ifs <;> rfl

theorem row_erase (d : Dict K (Dict W Nat)) (k k' : K) :
    (d.erase k).row k' = if k' = k then ∅ else d.row k' := by
  rw [row, get?_erase]
  split_ifs <;> rfl

end Rows

section Index

variable [DecidableEq K] [DecidableEq W]

def countAt (d : Dict K (Dict W Nat)) (k : K) (x : W) : Nat := (d.row k).countOf x

/-- No row is empty and no entry counts nothing. -/
structure Tight (d : Dict K (Dict W Nat)) : Prop where
  nonempty : ∀ k t, d.get? k = some t → t.entries ≠ []
  positive : ∀ k, (d.row k).Positive

def add (d : Dict K (Dict W Nat)) (k : K) (x : W) : Dict K (Dict W Nat) :=
  d.set k ((d.row k).inc x)

/-- A row that is not there stays so; a row that loses its last entry goes. -/
def remove (d : Dict K (Dict W Nat)) (k : K) (x : W) : Option (Dict K (Dict W Nat)) :=
  match d.get? k with
  | none => some d
  | some t => (t.dec x).map fun t' => if t'.entries.isEmpty then d.erase k else d.set k t'

def addAll (d : Dict K (Dict W Nat)) (ks : List K) (x : W) : Dict K (Dict W Nat) :=
  ks.foldl (fun d k => d.add k x) d

def removeAll (d : Dict K (Dict W Nat)) (ks : List K) (x : W) : Option (Dict K (Dict W Nat)) :=
  ks.foldlM (fun d k => d.remove k x) d

variable {d d' : Dict K (Dict W Nat)}

@[simp] theorem countAt_empty (k : K) (x : W) : (∅ : Dict K (Dict W Nat)).countAt k x = 0 := rfl

theorem tight_empty : Tight (∅ : Dict K (Dict W Nat)) where
  nonempty _ _ h := absurd h (by simp)
  positive _ := positive_empty

theorem Tight.mem_row (h : d.Tight) {k : K} {x : W} : x ∈ (d.row k).keys ↔ 0 < d.countAt k x := by
  rw [mem_keys, countAt, (h.positive k).countOf_pos]

theorem countAt_add (d : Dict K (Dict W Nat)) (k k' : K) (x y : W) :
    (d.add k x).countAt k' y = d.countAt k' y + if k' = k ∧ y = x then 1 else 0 := by
  rw [add, countAt, row_set]
  by_cases hk : k' = k
  · rw [if_pos hk, countOf_inc, hk]
    simp only [true_and]
    rfl
  · rw [if_neg hk, if_neg fun h => hk h.1]
    rfl

theorem Tight.add (h : d.Tight) (k : K) (x : W) : (d.add k x).Tight where
  nonempty k' t ht := by
    rw [Dict.add, get?_set] at ht
    split_ifs at ht
    · obtain rfl := Option.some.inj ht
      intro hnil
      have hmem : x ∈ ((d.row k).inc x).keys := by
        rw [mem_keys, inc, get?_set_self]
        exact Option.some_ne_none _
      rw [keys, hnil] at hmem
      exact absurd hmem List.not_mem_nil
    · exact h.nonempty k' t ht
  positive k' := by
    rw [Dict.add, row_set]
    split_ifs
    · exact (h.positive k).inc x
    · exact h.positive k'

theorem Tight.remove (h : d.Tight) {k : K} {x : W} (hpos : 0 < d.countAt k x) :
    ∃ d', d.remove k x = some d' ∧ d'.Tight ∧
      ∀ k' y, d'.countAt k' y = d.countAt k' y - if k' = k ∧ y = x then 1 else 0 := by
  obtain ⟨t, ht⟩ : ∃ t, d.get? k = some t := by
    apply Option.ne_none_iff_exists'.1
    intro hnone
    rw [countAt, row, hnone] at hpos
    exact absurd hpos (Nat.lt_irrefl 0)
  have hrow : d.row k = t := by rw [row, ht, Option.getD_some]
  rw [countAt, hrow] at hpos
  obtain ⟨t', ht', hpos', hcount⟩ := (hrow ▸ h.positive k).dec hpos
  have hunfold : d.remove k x = some (if t'.entries.isEmpty then d.erase k else d.set k t') := by
    rw [Dict.remove, ht]
    simp only [ht', Option.map_some]
  have hrow' : ∀ k', (if t'.entries.isEmpty then d.erase k else d.set k t').row k' =
      if k' = k then t' else d.row k' := by
    intro k'
    split_ifs with hempty hk hk
    · have hnil : t' = ∅ := by
        obtain ⟨es, hes⟩ := t'
        have : es = [] := List.isEmpty_iff.1 hempty
        subst this
        rfl
      rw [row_erase, if_pos hk, hnil]
    · rw [row_erase, if_neg hk]
    · rw [row_set, if_pos hk]
    · rw [row_set, if_neg hk]
  refine ⟨_, hunfold, ⟨?_, ?_⟩, ?_⟩
  · intro k' r hr
    split_ifs at hr with hempty
    · rw [get?_erase] at hr
      split_ifs at hr
      exact h.nonempty k' r hr
    · rw [get?_set] at hr
      split_ifs at hr
      · obtain rfl := Option.some.inj hr
        intro hnil
        exact hempty (List.isEmpty_iff.2 hnil)
      · exact h.nonempty k' r hr
  · intro k'
    rw [hrow']
    split_ifs
    · exact hpos'
    · exact h.positive k'
  · intro k' y
    rw [countAt, hrow']
    by_cases hk : k' = k
    · rw [if_pos hk, hcount, countAt, hk, hrow]
      simp only [true_and]
    · rw [if_neg hk, if_neg fun h => hk h.1]
      rfl

theorem Tight.addAll (ks : List K) (x : W) (h : d.Tight) : (d.addAll ks x).Tight := by
  induction ks generalizing d with
  | nil => exact h
  | cons k ks ih => exact ih (h.add k x)

section All

variable [BEq K] [LawfulBEq K]

theorem countAt_addAll (ks : List K) (x : W) (d : Dict K (Dict W Nat)) (k' : K) (y : W) :
    (d.addAll ks x).countAt k' y = d.countAt k' y + if y = x then ks.count k' else 0 := by
  induction ks generalizing d with
  | nil => simp [addAll]
  | cons k ks ih =>
    show ((d.add k x).addAll ks x).countAt k' y = _
    rw [ih, countAt_add, List.count_cons]
    by_cases hy : y = x
    · by_cases hk : k = k'
      · simp [hy, hk]
        omega
      · simp [hy, hk, Ne.symm hk]
    · simp [hy]

theorem Tight.removeAll (ks : List K) (x : W) (h : d.Tight)
    (hle : ∀ k, ks.count k ≤ d.countAt k x) :
    ∃ d', d.removeAll ks x = some d' ∧ d'.Tight ∧
      ∀ k' y, d'.countAt k' y = d.countAt k' y - if y = x then ks.count k' else 0 := by
  induction ks generalizing d with
  | nil => exact ⟨d, rfl, h, by simp⟩
  | cons k ks ih =>
    have hpos : 0 < d.countAt k x := by
      have := hle k
      rw [List.count_cons_self] at this
      omega
    obtain ⟨d₁, hd₁, htight₁, hcount₁⟩ := h.remove hpos
    obtain ⟨d₂, hd₂, htight₂, hcount₂⟩ := ih htight₁ fun k' => by
      have := hle k'
      rw [List.count_cons] at this
      rw [hcount₁]
      by_cases hk : k' = k
      · simp [hk] at this ⊢
        omega
      · simp [hk, Ne.symm hk] at this ⊢
        omega
    refine ⟨d₂, ?_, htight₂, ?_⟩
    · rw [Dict.removeAll, List.foldlM_cons, hd₁]
      exact hd₂
    · intro k' y
      rw [hcount₂, hcount₁, List.count_cons]
      by_cases hy : y = x
      · by_cases hk : k = k'
        · simp [hy, hk]
          omega
        · simp [hy, hk, Ne.symm hk]
      · simp [hy]

end All

end Index

end Sunpack.Lib.Dict
