import Mathlib

/-!
# Open addressing

A table of `cap` cells in which a pair stands behind the home of its key, with no empty cell between
them. A cell that is empty therefore ends every search for a key.
-/

namespace Sunpack.Lib

variable {K V : Type*}

/-! ## Walking -/

/-- The cells from a start on, around the end of the table. -/
def walked (cap start d : Nat) : Nat := (start + d) % cap

theorem walked_lt {cap : Nat} (hcap : 0 < cap) (start d : Nat) : walked cap start d < cap :=
  Nat.mod_lt _ hcap

theorem walked_succ (cap start d : Nat) : walked cap start (d + 1) = (walked cap start d + 1) % cap := by
  unfold walked
  rw [Nat.mod_add_mod, Nat.add_assoc]

/-- Every cell is walked over, and once. -/
theorem exists_walked {cap i : Nat} (hi : i < cap) (start : Nat) :
    ∃ d < cap, walked cap start d = i := by
  have hmod := Nat.mod_lt start (show 0 < cap by omega)
  refine ⟨(i + (cap - start % cap)) % cap, Nat.mod_lt _ (by omega), ?_⟩
  unfold walked
  rw [Nat.add_mod_mod, ← Nat.mod_add_mod]
  have hsum : start % cap + (i + (cap - start % cap)) = i + cap := by omega
  rw [hsum, Nat.add_mod_right, Nat.mod_eq_of_lt hi]

theorem walked_injective {cap start d e : Nat} (hd : d < cap) (he : e < cap)
    (h : walked cap start d = walked cap start e) : d = e := by
  have hmod : d ≡ e [MOD cap] := Nat.ModEq.add_left_cancel' start h
  rw [Nat.ModEq, Nat.mod_eq_of_lt hd, Nat.mod_eq_of_lt he] at hmod
  exact hmod

/-! ## Tables -/

/-- Some cell has this pair. -/
def Content (cap : Nat) (cell : Nat → Option (K × V)) (k : K) (v : V) : Prop :=
  ∃ i < cap, cell i = some (k, v)

/-- The number of cells that are not empty. -/
def used (cap : Nat) (cell : Nat → Option (K × V)) : Nat :=
  (List.range cap).countP fun i => (cell i).isSome

/-- No empty cell between a pair and the home of its key, and a key has one cell only. -/
structure Probed (cap : Nat) (home : K → Nat) (cell : Nat → Option (K × V)) : Prop where
  reaches : ∀ i < cap, ∀ k v, cell i = some (k, v) →
    ∃ d < cap, walked cap (home k) d = i ∧ ∀ j < d, cell (walked cap (home k) j) ≠ none
  once : ∀ i < cap, ∀ j < cap, ∀ k v v', cell i = some (k, v) → cell j = some (k, v') → i = j

theorem probed_empty (cap : Nat) (home : K → Nat) :
    Probed cap home (fun _ => none : Nat → Option (K × V)) where
  reaches i _ k v h := by cases h
  once i _ j _ k v v' h := by cases h

theorem used_empty (cap : Nat) : used cap (fun _ => none : Nat → Option (K × V)) = 0 := by
  unfold used
  rw [List.countP_eq_zero]
  intro i _ h
  cases h

variable {cap : Nat} {home : K → Nat} {cell : Nat → Option (K × V)}

theorem used_le (cap : Nat) (cell : Nat → Option (K × V)) : used cap cell ≤ cap := by
  unfold used
  conv_rhs => rw [← @List.length_range cap]
  exact List.countP_le_length

theorem used_succ (cap : Nat) (cell : Nat → Option (K × V)) :
    used (cap + 1) cell = used cap cell + (cell cap).isSome.toNat := by
  unfold used
  rw [List.range_succ, List.countP_append, List.countP_singleton]
  cases cell cap <;> rfl

theorem content_succ {k : K} {v : V} :
    Content (cap + 1) cell k v ↔ Content cap cell k v ∨ cell cap = some (k, v) := by
  constructor
  · rintro ⟨i, hi, hcell⟩
    rcases Nat.lt_succ_iff_lt_or_eq.1 hi with hlt | rfl
    · exact .inl ⟨i, hlt, hcell⟩
    · exact .inr hcell
  · rintro (⟨i, hi, hcell⟩ | hcell)
    · exact ⟨i, by omega, hcell⟩
    · exact ⟨cap, by omega, hcell⟩

/-- A table that is not full has an empty cell behind every start. -/
theorem exists_empty (h : used cap cell < cap) (start : Nat) :
    ∃ d < cap, cell (walked cap start d) = none := by
  by_contra hall
  have hfull : used cap cell = cap := by
    unfold used
    conv_rhs => rw [← @List.length_range cap]
    rw [List.countP_eq_length]
    intro i hi
    obtain ⟨d, hd, hwalked⟩ := exists_walked (List.mem_range.1 hi) start
    rw [Option.isSome_iff_ne_none, ← hwalked]
    exact fun hnone => hall ⟨d, hd, hnone⟩
  omega

/-- A search ends at an empty cell: the key is nowhere. -/
theorem Probed.absent (h : Probed cap home cell) {k : K} {d : Nat}
    (hbefore : ∀ j < d, ∀ v, cell (walked cap (home k) j) ≠ some (k, v))
    (hempty : cell (walked cap (home k) d) = none) (v : V) : ¬ Content cap cell k v := by
  rintro ⟨i, hi, hcell⟩
  obtain ⟨e, -, rfl, hpath⟩ := h.reaches i hi k v hcell
  rcases Nat.lt_trichotomy e d with hlt | rfl | hgt
  · exact hbefore e hlt v hcell
  · rw [hempty] at hcell
    cases hcell
  · exact hpath d hgt hempty

theorem countP_update {p : Nat → Bool} {n i : Nat} (hi : i < n) (b : Bool) :
    (List.range n).countP (Function.update p i b) + (p i).toNat =
      (List.range n).countP p + b.toNat := by
  induction n with
  | zero => exact absurd hi (Nat.not_lt_zero i)
  | succ n ih =>
    rw [List.range_succ, List.countP_append, List.countP_append, List.countP_singleton,
      List.countP_singleton]
    by_cases heq : i = n
    · subst heq
      have hsame : (List.range i).countP (Function.update p i b) = (List.range i).countP p := by
        apply List.countP_congr
        intro j hj
        have hne : j ≠ i := Nat.ne_of_lt (List.mem_range.1 hj)
        rw [Function.update_of_ne hne]
      rw [hsame, Function.update_self]
      cases b <;> cases p i <;> simp
    · have hstep := ih (by omega)
      rw [Function.update_of_ne (Ne.symm heq)]
      omega

theorem used_update {i : Nat} (hi : i < cap) (pair : K × V) :
    used cap (Function.update cell i (some pair)) + (cell i).isSome.toNat = used cap cell + 1 := by
  have hcount := countP_update (p := fun i => (cell i).isSome) hi true
  have hsame : (fun j => (Function.update cell i (some pair) j).isSome) =
      Function.update (fun j => (cell j).isSome) i true := by
    funext j
    by_cases hj : j = i
    · rw [hj, Function.update_self, Function.update_self]
      rfl
    · rw [Function.update_of_ne hj, Function.update_of_ne hj]
  unfold used
  rw [hsame]
  exact hcount

/-- A cell that a key may take: no other key has it, and the key has no other one. -/
structure Takes (cap : Nat) (cell : Nat → Option (K × V)) (k : K) (i : Nat) : Prop where
  lt : i < cap
  free : ∀ k' v, cell i = some (k', v) → k' = k
  sole : ∀ j < cap, ∀ v, cell j = some (k, v) → j = i

theorem Takes.content {i : Nat} {k : K} (h : Takes cap cell k i) (v : V) (k' : K) (v' : V) :
    Content cap (Function.update cell i (some (k, v))) k' v' ↔
      k' = k ∧ v' = v ∨ k' ≠ k ∧ Content cap cell k' v' := by
  constructor
  · rintro ⟨j, hj, hcell⟩
    by_cases hji : j = i
    · rw [hji, Function.update_self] at hcell
      obtain ⟨rfl, rfl⟩ := Prod.mk.inj (Option.some.inj hcell)
      exact .inl ⟨rfl, rfl⟩
    · rw [Function.update_of_ne hji] at hcell
      refine .inr ⟨?_, j, hj, hcell⟩
      rintro rfl
      exact hji (h.sole j hj v' hcell)
  · rintro (⟨rfl, rfl⟩ | ⟨hne, j, hj, hcell⟩)
    · exact ⟨i, h.lt, Function.update_self _ _ _⟩
    · refine ⟨j, hj, ?_⟩
      rw [Function.update_of_ne, hcell]
      rintro rfl
      exact hne (h.free k' v' hcell)

theorem Takes.probed {k : K} {d : Nat} (hprobed : Probed cap home cell) (hd : d < cap)
    (h : Takes cap cell k (walked cap (home k) d))
    (hbefore : ∀ j < d, cell (walked cap (home k) j) ≠ none) (v : V) :
    Probed cap home (Function.update cell (walked cap (home k) d) (some (k, v))) := by
  have hstill : ∀ j, cell j ≠ none →
      Function.update cell (walked cap (home k) d) (some (k, v)) j ≠ none := by
    intro j hj
    by_cases heq : j = walked cap (home k) d
    · rw [heq, Function.update_self]
      exact Option.some_ne_none _
    · rwa [Function.update_of_ne heq]
  constructor
  · intro j hj k' v' hcell
    by_cases heq : j = walked cap (home k) d
    · rw [heq, Function.update_self] at hcell
      obtain ⟨rfl, rfl⟩ := Prod.mk.inj (Option.some.inj hcell)
      exact ⟨d, hd, heq.symm, fun i hi => hstill _ (hbefore i hi)⟩
    · rw [Function.update_of_ne heq] at hcell
      obtain ⟨e, he, hwalked, hpath⟩ := hprobed.reaches j hj k' v' hcell
      exact ⟨e, he, hwalked, fun i hi => hstill _ (hpath i hi)⟩
  · intro i hi j hj k' v₁ v₂ h₁ h₂
    by_cases hii : i = walked cap (home k) d
    · rw [hii, Function.update_self] at h₁
      obtain ⟨rfl, rfl⟩ := Prod.mk.inj (Option.some.inj h₁)
      by_cases hjj : j = walked cap (home k) d
      · rw [hii, hjj]
      · rw [Function.update_of_ne hjj] at h₂
        exact absurd (h.sole j hj v₂ h₂) hjj
    · rw [Function.update_of_ne hii] at h₁
      by_cases hjj : j = walked cap (home k) d
      · rw [hjj, Function.update_self] at h₂
        obtain ⟨rfl, rfl⟩ := Prod.mk.inj (Option.some.inj h₂)
        exact absurd (h.sole i hi v₁ h₁) hii
      · rw [Function.update_of_ne hjj] at h₂
        exact hprobed.once i hi j hj k' v₁ v₂ h₁ h₂

/-- An empty cell is free for a key that the table does not have. -/
theorem takes_empty {k : K} {i : Nat} (hi : i < cap) (hempty : cell i = none)
    (hnew : ∀ v, ¬ Content cap cell k v) : Takes cap cell k i where
  lt := hi
  free k' v h := by
    rw [hempty] at h
    cases h
  sole j hj v h := absurd ⟨j, hj, h⟩ (hnew v)

/-- The cell of a key. -/
theorem Probed.takes (h : Probed cap home cell) {k : K} {v : V} {i : Nat} (hi : i < cap)
    (hcell : cell i = some (k, v)) : Takes cap cell k i where
  lt := hi
  free k' v' h' := by
    rw [hcell] at h'
    exact (Prod.mk.inj (Option.some.inj h')).1.symm
  sole j hj v' h' := h.once j hj i hi k v' v h' hcell

/-! ## The first cell that fits -/

/-- The first cell behind a start that fulfils a condition. -/
def probe (p : Nat → Bool) (cap : Nat) : Nat → Nat → Option Nat
  | 0, _ => none
  | n + 1, slot => if p slot then some slot else probe p cap n ((slot + 1) &&& (cap - 1))

theorem and_pred_eq_mod {cap k : Nat} (hcap : cap = 2 ^ k) (n : Nat) : n &&& (cap - 1) = n % cap := by
  rw [hcap]
  exact Nat.and_two_pow_sub_one_eq_mod n k

theorem probe_spec {p : Nat → Bool} {bits : Nat} (hcap : cap = 2 ^ bits) {start d n : Nat}
    (hd : d < n) (hp : p (walked cap start d) = true) :
    ∃ e ≤ d, probe p cap n (walked cap start 0) = some (walked cap start e) ∧
      p (walked cap start e) = true ∧ ∀ j < e, p (walked cap start j) = false := by
  have hfrom : ∀ n i, i ≤ d → d < i + n → (∀ j < i, p (walked cap start j) = false) →
      ∃ e ≤ d, probe p cap n (walked cap start i) = some (walked cap start e) ∧
        p (walked cap start e) = true ∧ ∀ j < e, p (walked cap start j) = false := by
    intro n
    induction n with
    | zero =>
      intro i hi hlt
      omega
    | succ n ih =>
      intro i hi hlt hbefore
      unfold probe
      cases hpi : p (walked cap start i) with
      | true => exact ⟨i, hi, rfl, hpi, hbefore⟩
      | false =>
        have hne : i ≠ d := by
          rintro rfl
          rw [hpi] at hp
          cases hp
        rw [if_neg Bool.false_ne_true, and_pred_eq_mod hcap, ← walked_succ]
        refine ih (i + 1) (by omega) (by omega) fun j hj => ?_
        rcases Nat.lt_succ_iff_lt_or_eq.1 hj with hj | rfl
        · exact hbefore j hj
        · exact hpi
  exact hfrom n 0 (Nat.zero_le d) (by omega) fun j hj => absurd hj (Nat.not_lt_zero j)

end Sunpack.Lib
