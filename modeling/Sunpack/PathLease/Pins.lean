import Sunpack.PathKeys
import Sunpack.Lib.Tally

/-!
# Pins

`_pins` and `_pin_counts` of `_PathLeaseRegistry`. A lease pins the keys of the snapshot it was
granted for; the counts say how many leases of an owner pin a key.
-/

namespace Sunpack.PathLease

open Lib

structure PinTable (Owner Lease : Type) where
  pins : Dict Owner (Dict Lease (List Text)) := ∅
  pinCounts : Dict Owner (Dict Text Nat) := ∅

namespace PinTable

variable {Owner Lease : Type} [DecidableEq Owner] [DecidableEq Lease]

def pinsOf (t : PinTable Owner Lease) (owner : Owner) : Dict Lease (List Text) :=
  (t.pins.get? owner).getD ∅

/-- The end of `acquire`: the keys are pinned by the lease. -/
def pin (t : PinTable Owner Lease) (owner : Owner) (lease : Lease) (keys : List Text) :
    PinTable Owner Lease where
  pins := t.pins.set owner ((t.pinsOf owner).set lease keys)
  pinCounts := t.pinCounts.set owner (keys.foldl Dict.inc (t.pinCounts.row owner))

/-- One key of `_unpin`, with the keys that are idle now. -/
def unpinKey (s : Dict Text Nat × List Text) (key : Text) : Option (Dict Text Nat × List Text) := do
  let counts ← s.1.dec key
  some (counts, if (counts.get? key).isNone then s.2 ++ [key] else s.2)

/-- `_unpin`. There is no result where a count is missing (`KeyError`). -/
def unpin (t : PinTable Owner Lease) (owner : Owner) (lease : Lease) :
    Option (PinTable Owner Lease × List Text) := do
  let keys := ((t.pinsOf owner).get? lease).getD []
  let pins := (t.pinsOf owner).erase lease
  let s ← keys.foldlM unpinKey (t.pinCounts.row owner, [])
  some
    ({ pins := if pins.entries.isEmpty then t.pins.erase owner else t.pins.set owner pins
       pinCounts := if s.1.entries.isEmpty then t.pinCounts.erase owner
         else t.pinCounts.set owner s.1 }, s.2)

/-- The pins part of `_remove_owner`. -/
def forget (t : PinTable Owner Lease) (owner : Owner) : PinTable Owner Lease where
  pins := t.pins.erase owner
  pinCounts := t.pinCounts.erase owner

/-! ## The counts are those of the pins -/

structure Counted (t : PinTable Owner Lease) : Prop where
  counts : ∀ owner key, t.pinCounts.countAt owner key =
    (t.pinsOf owner).total fun keys => keys.count key
  positive : ∀ owner, (t.pinCounts.row owner).Positive

omit [DecidableEq Lease] in
theorem counted_empty : Counted ({} : PinTable Owner Lease) where
  counts _ _ := rfl
  positive _ := Dict.positive_empty

variable {t t' : PinTable Owner Lease} {owner : Owner} {lease : Lease} {key : Text}

theorem Counted.pinned_iff (h : t.Counted) :
    0 < t.pinCounts.countAt owner key ↔
      ∃ l keys, (t.pinsOf owner).get? l = some keys ∧ key ∈ keys := by
  rw [h.counts, Dict.total_pos]
  simp only [List.count_pos_iff]

theorem pinsOf_pin (keys : List Text) (o : Owner) :
    (t.pin owner lease keys).pinsOf o =
      if o = owner then (t.pinsOf owner).set lease keys else t.pinsOf o := by
  rw [pinsOf, pin, Dict.get?_set]
  split_ifs <;> rfl

theorem Counted.pin (h : t.Counted) (hnone : (t.pinsOf owner).get? lease = none)
    (keys : List Text) : (t.pin owner lease keys).Counted where
  counts o k := by
    rw [pinsOf_pin]
    show (t.pinCounts.set owner _).countAt o k = _
    rw [Dict.countAt, Dict.row_set]
    split_ifs with ho
    · rw [Dict.countOf_foldl_inc, Dict.total_set_new _ _ hnone, ← h.counts]
      rfl
    · exact h.counts o k
  positive o := by
    show ((t.pinCounts.set owner _).row o).Positive
    rw [Dict.row_set]
    split_ifs
    · exact (h.positive owner).foldl_inc keys
    · exact h.positive o

theorem unpinFold_spec (keys : List Text) {counts : Dict Text Nat} (idle : List Text)
    (h : counts.Positive) (hle : ∀ k, keys.count k ≤ counts.countOf k) :
    ∃ counts' idle', keys.foldlM unpinKey (counts, idle) = some (counts', idle') ∧
      counts'.Positive ∧ (∀ k, counts'.countOf k + keys.count k = counts.countOf k) ∧
      (∀ k ∈ idle', k ∈ idle ∨ (k ∈ keys ∧ counts'.countOf k = 0)) ∧
      (∀ k ∈ idle, k ∈ idle') ∧ (∀ k ∈ keys, 0 < counts'.countOf k ∨ k ∈ idle') := by
  induction keys generalizing counts idle with
  | nil =>
    refine ⟨counts, idle, rfl, h, fun _ => rfl, fun _ => .inl, fun _ => id, fun k hk => ?_⟩
    exact absurd hk List.not_mem_nil
  | cons key keys ih =>
    have hkey := hle key
    rw [List.count_cons_self] at hkey
    obtain ⟨counts₁, hdec, hpositive₁, hcount₁⟩ := h.dec (x := key) (by omega)
    have hsum₁ (k : Text) :
        counts₁.countOf k + (if k = key then 1 else 0) = counts.countOf k := by
      rw [hcount₁]
      split_ifs with hk
      · rw [hk]
        omega
      · omega
    obtain ⟨counts₂, idle₂, hrun, hpositive₂, hcount₂, hidle, hold, hpinned⟩ :=
      ih (if (counts₁.get? key).isNone then idle ++ [key] else idle) hpositive₁ fun k => by
        have hk := hle k
        have hs := hsum₁ k
        rw [List.count_cons] at hk
        by_cases heq : k = key
        · simp [heq] at hk hs ⊢
          omega
        · simp [heq, Ne.symm heq] at hk hs ⊢
          omega
    refine ⟨counts₂, idle₂, ?_, hpositive₂, fun k => ?_, fun k hk => ?_, fun k hk => ?_,
      fun k hk => ?_⟩
    · rw [List.foldlM_cons, unpinKey, hdec]
      exact hrun
    · have hs := hsum₁ k
      have h₂ := hcount₂ k
      rw [List.count_cons]
      by_cases heq : k = key
      · simp [heq] at hs h₂ ⊢
        omega
      · simp [heq, Ne.symm heq] at hs h₂ ⊢
        omega
    · rcases hidle k hk with hmem | ⟨hmem, hzero⟩
      · split_ifs at hmem with hnone
        · rcases List.mem_append.1 hmem with hmem | hmem
          · exact .inl hmem
          · rw [List.mem_singleton] at hmem
            refine .inr ⟨hmem ▸ List.mem_cons_self, ?_⟩
            have h₂ := hcount₂ k
            have hzero : counts₁.countOf k = 0 := by
              rw [hmem, Dict.countOf, Option.isNone_iff_eq_none.1 hnone, Option.getD_none]
            omega
        · exact .inl hmem
      · exact .inr ⟨List.mem_cons_of_mem key hmem, hzero⟩
    · apply hold
      split_ifs
      · exact List.mem_append_left _ hk
      · exact hk
    · rcases List.mem_cons.1 hk with rfl | hk
      · by_cases hmem : k ∈ keys
        · exact hpinned k hmem
        · by_cases hnone : (counts₁.get? k).isNone
          · refine .inr (hold k ?_)
            rw [if_pos hnone]
            exact List.mem_append_right _ (List.mem_singleton_self k)
          · refine .inl ?_
            have h₂ := hcount₂ k
            have hpos := hpositive₁.countOf_pos.2 fun h => hnone (Option.isNone_iff_eq_none.2 h)
            rw [List.count_eq_zero.2 hmem] at h₂
            omega
      · exact hpinned k hk

theorem row_dropEmpty (d : Dict Owner (Dict Text Nat)) (counts : Dict Text Nat) (o : Owner) :
    (if counts.entries.isEmpty then d.erase owner else d.set owner counts).row o =
      if o = owner then counts else d.row o := by
  by_cases hempty : counts.entries.isEmpty
  · rw [if_pos hempty, Dict.row_erase]
    split_ifs
    · obtain ⟨es, hes⟩ := counts
      have : es = [] := List.isEmpty_iff.1 hempty
      subst this
      rfl
    · rfl
  · rw [if_neg hempty, Dict.row_set]

/-- What `_unpin` does. -/
structure Unpins (t : PinTable Owner Lease) (owner : Owner) (lease : Lease)
    (t' : PinTable Owner Lease) (idle : List Text) : Prop where
  counted : t'.Counted
  pins : ∀ o l, (t'.pinsOf o).get? l =
    if o = owner ∧ l = lease then none else (t.pinsOf o).get? l
  idle_keys : ∀ key ∈ idle, ∃ keys, (t.pinsOf owner).get? lease = some keys ∧ key ∈ keys
  idle_unpinned : ∀ key ∈ idle, t'.pinCounts.countAt owner key = 0
  pinned_or_idle : ∀ keys, (t.pinsOf owner).get? lease = some keys → ∀ key ∈ keys,
    0 < t'.pinCounts.countAt owner key ∨ key ∈ idle

theorem Counted.unpin (h : t.Counted) (owner : Owner) (lease : Lease) :
    ∃ t' idle, t.unpin owner lease = some (t', idle) ∧ Unpins t owner lease t' idle := by
  have htotal (k : Text) : ((t.pinsOf owner).erase lease).total (fun keys => keys.count k) +
      (((t.pinsOf owner).get? lease).getD []).count k = t.pinCounts.countAt owner k := by
    rw [h.counts, ← (t.pinsOf owner).total_erase _ lease]
    cases (t.pinsOf owner).get? lease <;> rfl
  obtain ⟨counts, idle, hrun, hpositive, hcount, hidle, -, hpinned⟩ := unpinFold_spec
    (((t.pinsOf owner).get? lease).getD []) [] (h.positive owner) fun k => by
      have := htotal k
      rw [Dict.countAt] at this
      omega
  have hpins (o : Owner) :
      ((if ((t.pinsOf owner).erase lease).entries.isEmpty then t.pins.erase owner
        else t.pins.set owner ((t.pinsOf owner).erase lease)).get? o).getD ∅ =
        if o = owner then (t.pinsOf owner).erase lease else t.pinsOf o := by
    split_ifs with hempty ho ho
    · rw [Dict.get?_erase, if_pos ho, Option.getD_none]
      generalize (t.pinsOf owner).erase lease = pins at hempty
      obtain ⟨es, hes⟩ := pins
      have : es = [] := List.isEmpty_iff.1 hempty
      subst this
      rfl
    · rw [Dict.get?_erase, if_neg ho]
      rfl
    · rw [Dict.get?_set, if_pos ho, Option.getD_some]
    · rw [Dict.get?_set, if_neg ho]
      rfl
  refine ⟨_, idle, by rw [PinTable.unpin, hrun]; rfl, ⟨fun o k => ?_, fun o => ?_⟩,
    fun o l => ?_, fun k hk => ?_, fun k hk => ?_, fun keys hkeys k hk => ?_⟩
  · rw [Dict.countAt, row_dropEmpty, pinsOf, hpins]
    split_ifs with ho
    · have h₁ := htotal k
      have h₂ := hcount k
      rw [Dict.countAt] at h₁
      show counts.countOf k = _
      omega
    · exact h.counts o k
  · rw [row_dropEmpty]
    split_ifs
    · exact hpositive
    · exact h.positive o
  · rw [pinsOf, hpins]
    by_cases ho : o = owner
    · rw [if_pos ho, Dict.get?_erase, ho]
      simp only [true_and]
    · rw [if_neg ho, if_neg fun h => ho h.1]
  · rcases hidle k hk with hnil | ⟨hmem, -⟩
    · exact absurd hnil List.not_mem_nil
    · cases hget : (t.pinsOf owner).get? lease with
      | none =>
        rw [hget] at hmem
        exact absurd hmem List.not_mem_nil
      | some keys =>
        rw [hget] at hmem
        exact ⟨keys, rfl, hmem⟩
  · rw [Dict.countAt, row_dropEmpty, if_pos rfl]
    rcases hidle k hk with hnil | ⟨-, hzero⟩
    · exact absurd hnil List.not_mem_nil
    · exact hzero
  · rw [Dict.countAt, row_dropEmpty, if_pos rfl]
    apply hpinned k
    rw [hkeys]
    exact hk

omit [DecidableEq Lease] in
theorem pinsOf_forget (o : Owner) :
    (t.forget owner).pinsOf o = if o = owner then ∅ else t.pinsOf o := by
  rw [pinsOf, forget, Dict.get?_erase]
  split_ifs <;> rfl

omit [DecidableEq Lease] in
theorem Counted.forget (h : t.Counted) (owner : Owner) : (t.forget owner).Counted where
  counts o k := by
    rw [pinsOf_forget]
    show (t.pinCounts.erase owner).countAt o k = _
    rw [Dict.countAt, Dict.row_erase]
    split_ifs
    · rfl
    · exact h.counts o k
  positive o := by
    show ((t.pinCounts.erase owner).row o).Positive
    rw [Dict.row_erase]
    split_ifs
    · exact Dict.positive_empty
    · exact h.positive o

end PinTable

end Sunpack.PathLease
