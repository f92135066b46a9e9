import Mathlib.Data.List.Nodup
import Mathlib.Data.List.Perm.Subperm
import Mathlib.Tactic.Common

/-!
# The first free candidate

Numbered candidates are tried in turn until one is not taken. The search is bounded by the number of
taken keys, which is always enough when the candidates are distinct.
-/

namespace Sunpack.Lib

variable {κ : Type*} [DecidableEq κ]

/-- The first `n`, from `start` on, whose candidate is not taken; `fuel` bounds the search. -/
def firstFreeFrom (taken : List κ) (cand : Nat → κ) : Nat → Nat → Nat
  | 0, n => n
  | fuel + 1, n => if cand n ∈ taken then firstFreeFrom taken cand fuel (n + 1) else n

/-- One more try than there are taken keys is always enough (`firstFree_free`). -/
def firstFree (taken : List κ) (cand : Nat → κ) (start : Nat) : Nat :=
  firstFreeFrom taken cand taken.length start

theorem firstFreeFrom_spec (taken : List κ) (cand : Nat → κ) (fuel n : Nat) :
    n ≤ firstFreeFrom taken cand fuel n ∧
      (∀ m, n ≤ m → m < firstFreeFrom taken cand fuel n → cand m ∈ taken) ∧
      (cand (firstFreeFrom taken cand fuel n) ∈ taken →
        firstFreeFrom taken cand fuel n = n + fuel) := by
  induction fuel generalizing n with
  | zero => exact ⟨Nat.le_refl _, fun m hm hlt => absurd hlt (Nat.not_lt.2 hm), fun _ => rfl⟩
  | succ fuel ih =>
    rw [firstFreeFrom]
    split_ifs with hn
    · obtain ⟨hle, hbelow, hend⟩ := ih (n + 1)
      refine ⟨by omega, fun m hm hlt => ?_, fun h => by rw [hend h]; omega⟩
      rcases Nat.eq_or_lt_of_le hm with rfl | hm
      · exact hn
      · exact hbelow m hm hlt
    · exact ⟨Nat.le_refl _, fun m hm hlt => absurd hlt (Nat.not_lt.2 hm), fun h => absurd h hn⟩

theorem firstFree_le (taken : List κ) (cand : Nat → κ) (start : Nat) :
    start ≤ firstFree taken cand start :=
  (firstFreeFrom_spec taken cand _ start).1

theorem mem_of_lt_firstFree {taken : List κ} {cand : Nat → κ} {start m : Nat} (hm : start ≤ m)
    (hlt : m < firstFree taken cand start) : cand m ∈ taken :=
  (firstFreeFrom_spec taken cand _ start).2.1 m hm hlt

/-- Distinct candidates run out of taken keys. -/
theorem firstFree_free {taken : List κ} {cand : Nat → κ} (hinj : Function.Injective cand)
    (start : Nat) : cand (firstFree taken cand start) ∉ taken := by
  intro hmem
  obtain ⟨_, hbelow, hend⟩ := firstFreeFrom_spec taken cand taken.length start
  have heq := hend hmem
  -- all of `taken.length + 1` distinct candidates would be taken
  have hsub : (List.range' start (taken.length + 1)).map cand ⊆ taken := by
    intro k hk
    obtain ⟨m, hm, rfl⟩ := List.mem_map.1 hk
    rw [List.mem_range'_1] at hm
    rcases Nat.lt_or_ge m (start + taken.length) with hlt | hge
    · exact hbelow m hm.1 (heq ▸ hlt)
    · obtain rfl : m = start + taken.length := by omega
      exact heq ▸ hmem
  have hnodup : ((List.range' start (taken.length + 1)).map cand).Nodup :=
    List.Nodup.map hinj List.nodup_range'
  have hlen := (hnodup.subperm hsub).length_le
  simp only [List.length_map, List.length_range'] at hlen
  omega

/-- The least free number is the one with everything taken below it. -/
theorem firstFree_eq {taken : List κ} {cand : Nat → κ} (hinj : Function.Injective cand)
    {start n : Nat} (hle : start ≤ n) (hfree : cand n ∉ taken)
    (hbelow : ∀ m, start ≤ m → m < n → cand m ∈ taken) : firstFree taken cand start = n := by
  rcases Nat.lt_trichotomy (firstFree taken cand start) n with hlt | heq | hgt
  · exact absurd (hbelow _ (firstFree_le taken cand start) hlt) (firstFree_free hinj start)
  · exact heq
  · exact absurd (mem_of_lt_firstFree hle hgt) hfree

/-- Renaming the keys does not move the first free candidate. -/
theorem firstFree_map {κ' : Type*} [DecidableEq κ'] {g : κ → κ'} (hg : Function.Injective g)
    (taken : List κ) (cand : Nat → κ) (start : Nat) :
    firstFree (taken.map g) (fun n => g (cand n)) start = firstFree taken cand start := by
  have hfrom (fuel n : Nat) : firstFreeFrom (taken.map g) (fun n => g (cand n)) fuel n =
      firstFreeFrom taken cand fuel n := by
    induction fuel generalizing n with
    | zero => rfl
    | succ fuel ih => simp only [firstFreeFrom, List.mem_map_of_injective hg, ih]
  rw [firstFree, List.length_map, hfrom, firstFree]

end Sunpack.Lib
