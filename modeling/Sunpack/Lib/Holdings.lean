import Mathlib.Algebra.BigOperators.Group.Finset.Basic
import Mathlib.Algebra.Order.BigOperators.Group.Finset
import Mathlib.Data.Fintype.Basic

/-!
# Holdings

What finitely many parties hold together, where one of them changes at a time.
-/

namespace Sunpack.Lib

open Finset

variable {ι β : Type*} [Fintype ι] [DecidableEq ι]

/-- What the parties hold, each of them by its state. -/
def held (w : β → ℕ) (f : ι → β) : ℕ := ∑ i, w (f i)

theorem held_update (w : β → ℕ) (f : ι → β) (i : ι) (b : β) :
    held w (Function.update f i b) + w (f i) = held w f + w b := by
  have hnew := add_sum_erase univ (fun j => w (Function.update f i b j)) (mem_univ i)
  have hold := add_sum_erase univ (fun j => w (f j)) (mem_univ i)
  have hrest : ∑ j ∈ univ.erase i, w (Function.update f i b j) = ∑ j ∈ univ.erase i, w (f j) := by
    apply sum_congr rfl
    intro j hj
    rw [Function.update_of_ne (ne_of_mem_erase hj)]
  simp only [Function.update_self] at hnew
  unfold held
  omega

omit [DecidableEq ι] in
/-- Nobody holds more than all of them. -/
theorem le_held (w : β → ℕ) (f : ι → β) (i : ι) : w (f i) ≤ held w f :=
  single_le_sum (f := fun j => w (f j)) (fun _ _ => Nat.zero_le _) (mem_univ i)

omit [DecidableEq ι] in
theorem held_eq_zero {w : β → ℕ} {f : ι → β} (h : ∀ i, w (f i) = 0) : held w f = 0 :=
  sum_eq_zero fun i _ => h i

end Sunpack.Lib
