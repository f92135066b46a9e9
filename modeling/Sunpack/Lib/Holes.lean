import Mathlib

/-!
# Files with holes

Lists in which a range is overwritten with one value, lists that stand at a position of another one,
and the search for the end of what fulfils a condition in a sorted list.
-/

namespace Sunpack.Lib

variable {α : Type*}

/-! ## Holes -/

/-- The list with `z` at every position of a range. -/
def hole (z : α) (start stop : Nat) (l : List α) : List α :=
  l.mapIdx fun i a => if start ≤ i ∧ i < stop then z else a

@[simp] theorem length_hole (z : α) (start stop : Nat) (l : List α) :
    (hole z start stop l).length = l.length :=
  List.length_mapIdx

theorem getElem?_hole (z : α) (start stop : Nat) (l : List α) (i : Nat) :
    (hole z start stop l)[i]? = l[i]?.map fun a => if start ≤ i ∧ i < stop then z else a :=
  List.getElem?_mapIdx

theorem getElem?_hole_of_not {z : α} {start stop : Nat} {l : List α} {i : Nat}
    (h : i < start ∨ stop ≤ i) : (hole z start stop l)[i]? = l[i]? := by
  rw [getElem?_hole]
  have hnot : ¬ (start ≤ i ∧ i < stop) := by omega
  cases l[i]? with
  | none => rfl
  | some a => rw [Option.map_some, if_neg hnot]

theorem getElem?_hole_of_mem {z : α} {start stop : Nat} {l : List α} {i : Nat} (hstart : start ≤ i)
    (hstop : i < stop) (hlen : i < l.length) : (hole z start stop l)[i]? = some z := by
  rw [getElem?_hole, List.getElem?_eq_getElem hlen, Option.map_some, if_pos ⟨hstart, hstop⟩]

theorem drop_hole {z : α} {start stop n : Nat} (h : stop ≤ n) (l : List α) :
    (hole z start stop l).drop n = l.drop n := by
  apply List.ext_getElem?
  intro i
  rw [List.getElem?_drop, List.getElem?_drop]
  exact getElem?_hole_of_not (by omega)

/-! ## Parts -/

/-- A list stands at a position of another one. -/
def StandsAt (l : List α) (n : Nat) (part : List α) : Prop :=
  ∀ j < part.length, l[n + j]? = part[j]?

theorem StandsAt.le_length {l part : List α} {n : Nat} (h : StandsAt l n part) (hne : part ≠ []) :
    n + part.length ≤ l.length := by
  have hpos := List.length_pos_iff.2 hne
  have hlast := h (part.length - 1) (by omega)
  rw [List.getElem?_eq_getElem (show part.length - 1 < part.length by omega)] at hlast
  have hbound := (List.getElem?_eq_some_iff.1 hlast).1
  omega

theorem StandsAt.append {l part : List α} {n : Nat} (h : StandsAt l n part) (more : List α) :
    StandsAt (l ++ more) n part := by
  intro j hj
  have hne : part ≠ [] := by
    rintro rfl
    exact absurd hj (Nat.not_lt_zero j)
  have hbound := h.le_length hne
  rw [List.getElem?_append_left (by omega)]
  exact h j hj

theorem standsAt_end (l part : List α) : StandsAt (l ++ part) l.length part := by
  intro j _
  rw [List.getElem?_append_right (by omega), Nat.add_sub_cancel_left]

theorem StandsAt.hole {l part : List α} {n start stop : Nat} (h : StandsAt l n part) (z : α)
    (hout : stop ≤ n ∨ n + part.length ≤ start) : StandsAt (hole z start stop l) n part := by
  intro j hj
  rw [getElem?_hole_of_not (by omega)]
  exact h j hj

theorem StandsAt.take_drop {l part : List α} {n : Nat} (h : StandsAt l n part) :
    (l.drop n).take part.length = part := by
  apply List.ext_getElem?
  intro j
  rw [List.getElem?_take]
  split_ifs with hj
  · rw [List.getElem?_drop]
    exact h j hj
  · exact (List.getElem?_eq_none (by omega)).symm

/-! ## Searching -/

/-- The first position of a range from which on the condition fails, found by halving. -/
def bisect (p : α → Bool) (l : List α) (lo hi : Nat) : Option Nat :=
  if lo < hi then
    match l[lo + (hi - lo) / 2]? with
    | none => none
    | some a =>
      if p a then bisect p l (lo + (hi - lo) / 2 + 1) hi else bisect p l lo (lo + (hi - lo) / 2)
  else some lo
termination_by hi - lo

/-- Where the condition, once it fails, fails from then on, the search ends where it fails first. -/
theorem bisect_spec {p : α → Bool} {l : List α} {head : Nat}
    (hmono : ∀ i j a b, head ≤ i → i ≤ j → l[i]? = some a → l[j]? = some b → p b = true →
      p a = true) {lo hi : Nat} (hhead : head ≤ lo) (hle : lo ≤ hi) (hlen : hi ≤ l.length)
    (hbefore : ∀ i a, head ≤ i → i < lo → l[i]? = some a → p a = true)
    (hafter : ∀ i a, hi ≤ i → l[i]? = some a → p a = false) :
    ∃ k, bisect p l lo hi = some k ∧ lo ≤ k ∧ k ≤ hi ∧
      (∀ i a, head ≤ i → i < k → l[i]? = some a → p a = true) ∧
      ∀ i a, k ≤ i → l[i]? = some a → p a = false := by
  fun_induction bisect p l lo hi with
  | case1 lo hi hlt hnone =>
    rw [List.getElem?_eq_none_iff] at hnone
    omega
  | case2 lo hi hlt a ha hp ih =>
    obtain ⟨k, hk, hlo, hhi, hb, hf⟩ := ih (by omega) (by omega) hlen
      (fun i b hi' hlt' hget => hmono i _ b a hi' (by omega) hget ha hp) hafter
    exact ⟨k, hk, by omega, hhi, hb, hf⟩
  | case3 lo hi hlt a ha hp ih =>
    have hmid : ∀ i b, lo + (hi - lo) / 2 ≤ i → l[i]? = some b → p b = false := by
      intro i b hi' hget
      cases hb : p b with
      | false => rfl
      | true => exact absurd (hmono _ i a b (by omega) hi' ha hget hb) hp
    obtain ⟨k, hk, hlo, hhi, hb, hf⟩ := ih hhead (by omega) (by omega) hbefore hmid
    exact ⟨k, hk, hlo, by omega, hb, hf⟩
  | case4 lo hi hlt =>
    obtain rfl : lo = hi := by omega
    exact ⟨lo, rfl, le_rfl, le_rfl, hbefore, hafter⟩

/-- A condition that fails up to a position and holds from it on keeps what stands from it on. -/
theorem filter_eq_drop {p : α → Bool} {l : List α} {k : Nat} (hbefore : ∀ a ∈ l.take k, p a = false)
    (hafter : ∀ a ∈ l.drop k, p a = true) : l.filter p = l.drop k := by
  have hfront : (l.take k).filter p = [] := by
    rw [List.filter_eq_nil_iff]
    intro a ha
    rw [hbefore a ha]
    exact Bool.false_ne_true
  conv_lhs => rw [← List.take_append_drop k l, List.filter_append, hfront]
  exact List.filter_eq_self.2 hafter

/-! ## Side by side -/

theorem forall₂_getElem?_left {β : Type*} {R : α → β → Prop} {l : List α} {m : List β}
    (h : List.Forall₂ R l m) {i : Nat} {a : α} (ha : l[i]? = some a) :
    ∃ b, m[i]? = some b ∧ R a b := by
  induction h generalizing i with
  | nil => cases ha
  | @cons a' b' l m hab _ ih =>
    cases i with
    | zero =>
      obtain rfl : a' = a := Option.some.inj ha
      exact ⟨b', rfl, hab⟩
    | succ i => exact ih ha

theorem forall₂_getElem?_right {β : Type*} {R : α → β → Prop} {l : List α} {m : List β}
    (h : List.Forall₂ R l m) {i : Nat} {b : β} (hb : m[i]? = some b) :
    ∃ a, l[i]? = some a ∧ R a b := by
  obtain ⟨a, ha, hab⟩ := forall₂_getElem?_left h.flip hb
  exact ⟨a, ha, hab⟩

end Sunpack.Lib
