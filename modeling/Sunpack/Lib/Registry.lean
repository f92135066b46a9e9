import Mathlib.Data.List.Basic
import Mathlib.Data.List.Count
import Mathlib.Data.List.Nodup
import Mathlib.Data.List.Perm.Basic

/-!
# Counted XOR registries

A registry knows of the selected elements of a list how many there are and what their exclusive or
is. It follows a selection that changes at one element, and names the element when only one is left.
-/

namespace Sunpack.Lib

def xorAll (l : List Nat) : Nat := l.foldr (· ^^^ ·) 0

theorem xorAll_perm {l l' : List Nat} (h : l.Perm l') : xorAll l = xorAll l' :=
  h.foldr_eq' (fun x _ y _ z => by rw [← Nat.xor_assoc, Nat.xor_comm y x, Nat.xor_assoc]) 0

/-- `count` and `value` describe the elements of `l` with `p`. -/
structure Registry (p : Nat → Bool) (l : List Nat) (count value : Nat) : Prop where
  count_eq : count = (l.filter p).length
  value_eq : value = xorAll (l.filter p)

namespace Registry

variable {p q : Nat → Bool} {l : List Nat} {count value e : Nat}

theorem congr (h : Registry p l count value) (hq : ∀ x ∈ l, q x = p x) :
    Registry q l count value := by
  obtain ⟨hcount, hvalue⟩ := h
  rw [← List.filter_congr hq] at hcount hvalue
  exact ⟨hcount, hvalue⟩

/-- The selection with one element more. -/
theorem filter_perm_cons (hnodup : l.Nodup) (he : e ∈ l) (hp : p e = true) (hq : q e = false)
    (hsame : ∀ x ∈ l, x ≠ e → q x = p x) : (l.filter p).Perm (e :: l.filter q) := by
  rw [List.perm_ext_iff_of_nodup (hnodup.filter p)
    (List.nodup_cons.2 ⟨by simp [hq], hnodup.filter q⟩)]
  intro x
  rw [List.mem_cons, List.mem_filter, List.mem_filter]
  by_cases hx : x = e
  · subst hx
    simp [he, hp]
  · simp only [hx, false_or]
    exact and_congr_right fun hmem => by rw [hsame x hmem hx]

theorem remove (h : Registry p l count value) (hnodup : l.Nodup) (he : e ∈ l) (hp : p e = true)
    (hq : q e = false) (hsame : ∀ x ∈ l, x ≠ e → q x = p x) :
    0 < count ∧ Registry q l (count - 1) (value ^^^ e) := by
  have hperm := filter_perm_cons hnodup he hp hq hsame
  obtain ⟨rfl, rfl⟩ := h
  rw [hperm.length_eq, List.length_cons, xorAll_perm hperm]
  refine ⟨Nat.succ_pos _, Nat.succ_sub_one _, ?_⟩
  rw [xorAll, List.foldr_cons, Nat.xor_comm e, Nat.xor_assoc, Nat.xor_self, Nat.xor_zero]
  rfl

theorem add (h : Registry p l count value) (hnodup : l.Nodup) (he : e ∈ l) (hp : p e = false)
    (hq : q e = true) (hsame : ∀ x ∈ l, x ≠ e → q x = p x) :
    Registry q l (count + 1) (value ^^^ e) := by
  have hperm := filter_perm_cons hnodup he hq hp fun x hx hne => (hsame x hx hne).symm
  obtain ⟨rfl, rfl⟩ := h
  refine ⟨by rw [hperm.length_eq, List.length_cons], ?_⟩
  rw [xorAll_perm hperm, Nat.xor_comm]
  rfl

/-- One element is left: the registry names it. -/
theorem eq_of_count_one (h : Registry p l 1 value) : l.filter p = [value] := by
  obtain ⟨hcount, hvalue⟩ := h
  obtain ⟨x, hx⟩ := List.length_eq_one_iff.1 hcount.symm
  rw [hx] at hvalue ⊢
  rw [hvalue, xorAll, List.foldr_cons, List.foldr_nil, Nat.xor_zero]

theorem eq_nil_iff (h : Registry p l count value) : count = 0 ↔ l.filter p = [] := by
  rw [h.count_eq, List.length_eq_zero_iff]

theorem nil (p : Nat → Bool) : Registry p [] 0 0 :=
  ⟨rfl, rfl⟩

/-- A new element at the end of the list. -/
theorem append (h : Registry p l count value) (hp : p e = true) :
    Registry p (l ++ [e]) (count + 1) (value ^^^ e) := by
  obtain ⟨rfl, rfl⟩ := h
  have hfilter : (l ++ [e]).filter p = l.filter p ++ [e] := by simp [hp]
  refine ⟨by rw [hfilter, List.length_append, List.length_singleton], ?_⟩
  rw [hfilter, xorAll_perm List.perm_append_comm, Nat.xor_comm]
  rfl

theorem append_not (h : Registry p l count value) (hp : p e = false) :
    Registry p (l ++ [e]) count value := by
  obtain ⟨rfl, rfl⟩ := h
  have hfilter : (l ++ [e]).filter p = l.filter p := by simp [hp]
  exact ⟨by rw [hfilter], by rw [hfilter]⟩

end Registry

end Sunpack.Lib
