import Mathlib.Data.List.Basic
import Mathlib.Data.List.Infix
import Mathlib.Tactic.Common

/-!
# Logs that are cut at an arbitrary byte

A log is the concatenation of its encoded records. `survivors` are the records that a cut leaves
whole: the ones whose last byte is still there. They are a prefix of the log, the longest one that
fits into the cut (`le_survivors_iff`).
-/

namespace Sunpack.Lib.CutLog

variable {β ρ : Type*} (encode : ρ → List β)

/-- The bytes of a log. -/
def bytes (rs : List ρ) : List β := rs.flatMap encode

/-- The records whose last byte lies in the first `n` bytes of the log. -/
def survivors : List ρ → Nat → List ρ
  | [], _ => []
  | r :: rs, n =>
    if (encode r).length ≤ n then r :: survivors rs (n - (encode r).length) else []

@[simp] theorem bytes_nil : bytes encode [] = [] := rfl

@[simp] theorem bytes_cons (r : ρ) (rs : List ρ) :
    bytes encode (r :: rs) = encode r ++ bytes encode rs := rfl

@[simp] theorem bytes_append (rs rs' : List ρ) :
    bytes encode (rs ++ rs') = bytes encode rs ++ bytes encode rs' :=
  List.flatMap_append

theorem survivors_cons_of_le {r : ρ} {rs : List ρ} {n : Nat} (h : (encode r).length ≤ n) :
    survivors encode (r :: rs) n = r :: survivors encode rs (n - (encode r).length) :=
  if_pos h

theorem survivors_cons_of_lt {r : ρ} {rs : List ρ} {n : Nat} (h : n < (encode r).length) :
    survivors encode (r :: rs) n = [] :=
  if_neg (Nat.not_le.2 h)

theorem survivors_initial (rs : List ρ) (n : Nat) : survivors encode rs n <+: rs := by
  induction rs generalizing n with
  | nil => exact List.prefix_rfl
  | cons r rs ih =>
    rw [survivors]
    split_ifs
    · exact List.prefix_cons_inj r |>.2 (ih _)
    · exact List.nil_prefix

theorem survivors_eq_take (rs : List ρ) (n : Nat) :
    survivors encode rs n = rs.take (survivors encode rs n).length :=
  List.prefix_iff_eq_take.1 (survivors_initial encode rs n)

theorem bytes_survivors_le (rs : List ρ) (n : Nat) :
    (bytes encode (survivors encode rs n)).length ≤ n := by
  induction rs generalizing n with
  | nil => simp [survivors]
  | cons r rs ih =>
    rw [survivors]
    split_ifs with h
    · have := ih (n - (encode r).length)
      simp only [bytes_cons, List.length_append]
      omega
    · simp

/-- A record survives exactly if its end lies within the cut. -/
theorem le_survivors_iff {rs : List ρ} {n i : Nat} (hi : i ≤ rs.length) :
    i ≤ (survivors encode rs n).length ↔ (bytes encode (rs.take i)).length ≤ n := by
  induction rs generalizing n i with
  | nil =>
    obtain rfl : i = 0 := by simpa using hi
    simp
  | cons r rs ih =>
    cases i with
    | zero => simp
    | succ i =>
      rw [List.take_succ_cons, bytes_cons, List.length_append, survivors]
      split_ifs with h
      · have := ih (n := n - (encode r).length) (i := i) (by simpa using hi)
        rw [List.length_cons, Nat.succ_le_succ_iff, this]
        omega
      · simp only [List.length_nil]
        omega

theorem survivors_of_le {rs : List ρ} {n : Nat} (h : (bytes encode rs).length ≤ n) :
    survivors encode rs n = rs := by
  have hlen := (le_survivors_iff encode (n := n) (Nat.le_refl rs.length)).2 (by simpa using h)
  exact (survivors_initial encode rs n).eq_of_length_le hlen

end Sunpack.Lib.CutLog
