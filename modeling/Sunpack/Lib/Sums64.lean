import Mathlib.Tactic

/-!
# Sums of 64-bit numbers

The three ways to add two numbers of 64 bits as naturals: wrapping, saturating and checked.
-/

namespace Sunpack.Lib

/-- The wrapping sum. -/
def add64 (a b : Nat) : Nat := (a + b) % 2 ^ 64

/-- The saturating sum. -/
def sat64 (a b : Nat) : Nat := min (a + b) (2 ^ 64 - 1)

/-- The sum, if it has 64 bits. -/
def checked64 (a b : Nat) : Option Nat := if a + b < 2 ^ 64 then some (a + b) else none

theorem add64_eq {a b : Nat} (h : a + b < 2 ^ 64) : add64 a b = a + b := Nat.mod_eq_of_lt h

theorem sat64_lt (a b : Nat) : sat64 a b < 2 ^ 64 := by
  rw [sat64]
  omega

theorem sat64_le (a b : Nat) : sat64 a b ≤ a + b := min_le_left _ _

theorem le_sat64 {a b : Nat} (h : a < 2 ^ 64) : a ≤ sat64 a b := by
  rw [sat64]
  omega

theorem sat64_eq {a b : Nat} (h : sat64 a b < 2 ^ 64 - 1) : sat64 a b = a + b := by
  rw [sat64] at h ⊢
  omega

theorem sat64_of_lt {a b : Nat} (h : a + b < 2 ^ 64) : sat64 a b = a + b := by
  rw [sat64]
  omega

theorem checked64_of_lt {a b : Nat} (h : a + b < 2 ^ 64) : checked64 a b = some (a + b) := if_pos h

theorem checked64_eq_some {a b c : Nat} (h : checked64 a b = some c) :
    a + b < 2 ^ 64 ∧ c = a + b := by
  rw [checked64] at h
  split_ifs at h with hlt
  exact ⟨hlt, (Option.some.inj h).symm⟩

/-- Saturating sums saturate together. -/
theorem foldl_sat64 (sizes : List Nat) {total : Nat} (h : total < 2 ^ 64) :
    sizes.foldl sat64 total = min (total + sizes.sum) (2 ^ 64 - 1) := by
  induction sizes generalizing total with
  | nil =>
    rw [List.foldl_nil, List.sum_nil]
    omega
  | cons size sizes ih =>
    rw [List.foldl_cons, ih (sat64_lt _ _), List.sum_cons, sat64]
    omega

end Sunpack.Lib
