import Mathlib

/-!
# Fields one behind the other

A frame is the concatenation of its fields. Each field is found again at the sum of the lengths of the
fields before it.
-/

namespace Sunpack.Lib

variable {α : Type*}

theorem slice_flatten {parts : List (List α)} (k : Nat) {part : List α} {offset n : Nat}
    (hpart : parts[k]? = some part) (hoffset : ((parts.take k).map List.length).sum = offset)
    (hlength : part.length = n) : (parts.flatten.drop offset).take n = part := by
  have hk : k < parts.length := (List.getElem?_eq_some_iff.1 hpart).1
  have hsplit : parts = parts.take k ++ part :: parts.drop (k + 1) := by
    rw [← (List.getElem?_eq_some_iff.1 hpart).2, List.getElem_cons_drop, List.take_append_drop]
  have hfront : (parts.take k).flatten.length = offset := by rw [List.length_flatten, hoffset]
  rw [hsplit, List.flatten_append, List.flatten_cons, List.drop_left' hfront,
    List.take_left' hlength]

/-- Everything from a field on. -/
theorem drop_flatten {parts : List (List α)} (k : Nat) {offset : Nat}
    (hoffset : ((parts.take k).map List.length).sum = offset) :
    parts.flatten.drop offset = (parts.drop k).flatten := by
  have hfront : (parts.take k).flatten.length = offset := by rw [List.length_flatten, hoffset]
  conv_lhs => rw [← List.take_append_drop k parts, List.flatten_append]
  exact List.drop_left' hfront

/-- A list in pieces of the given lengths. -/
def cut : List Nat → List α → List (List α)
  | [], _ => []
  | n :: ns, l => l.take n :: cut ns (l.drop n)

theorem flatten_cut {widths : List Nat} {l : List α} (h : widths.sum = l.length) :
    (cut widths l).flatten = l := by
  induction widths generalizing l with
  | nil =>
    rw [List.sum_nil] at h
    rw [cut, List.flatten_nil, List.eq_nil_of_length_eq_zero h.symm]
  | cons n ns ih =>
    rw [List.sum_cons] at h
    rw [cut, List.flatten_cons, ih (by rw [List.length_drop]; omega), List.take_append_drop]

/-! ## Chunks -/

def chunksFrom (n : Nat) : Nat → List α → List (List α)
  | 0, _ => []
  | fuel + 1, l => if l = [] then [] else l.take n :: chunksFrom n fuel (l.drop n)

/-- Parts of `n` elements, the last one of what is left. -/
def chunks (n : Nat) (l : List α) : List (List α) := chunksFrom n l.length l

theorem of_mem_chunksFrom {n fuel k : Nat} (hn : 0 < n) {l part : List α} {i : Nat}
    (h : (part, i) ∈ (chunksFrom n fuel l).zipIdx k) :
    k ≤ i ∧ part ≠ [] ∧ part = (l.drop ((i - k) * n)).take n := by
  induction fuel generalizing l k with
  | zero => cases h
  | succ fuel ih =>
    unfold chunksFrom at h
    split_ifs at h with hnil
    · cases h
    · rw [List.zipIdx_cons, List.mem_cons, Prod.mk.injEq] at h
      rcases h with ⟨rfl, rfl⟩ | h
      · refine ⟨Nat.le_refl _, ?_, by simp⟩
        intro htake
        rcases List.take_eq_nil_iff.1 htake with hzero | hempty
        · omega
        · exact hnil hempty
      · obtain ⟨hle, hne, hpart⟩ := ih h
        refine ⟨by omega, hne, ?_⟩
        have hindex : i - k = (i - (k + 1)) + 1 := by omega
        rw [hpart, List.drop_drop, hindex, Nat.succ_mul, Nat.add_comm n]

theorem of_mem_chunks {n : Nat} (hn : 0 < n) {l part : List α} {i : Nat}
    (h : (part, i) ∈ (chunks n l).zipIdx) : part ≠ [] ∧ part = (l.drop (i * n)).take n := by
  obtain ⟨_, hne, hpart⟩ := of_mem_chunksFrom hn h
  exact ⟨hne, by simpa using hpart⟩

theorem mem_chunksFrom {n fuel k : Nat} (hn : 0 < n) {l : List α} {j : Nat} (hfuel : l.length ≤ fuel)
    (h : j < l.length) : ∃ part, (part, k + j / n) ∈ (chunksFrom n fuel l).zipIdx k := by
  induction fuel generalizing l k j with
  | zero => omega
  | succ fuel ih =>
    have hnil : l ≠ [] := by
      rintro rfl
      cases h
    unfold chunksFrom
    rw [if_neg hnil, List.zipIdx_cons]
    by_cases hj : j < n
    · rw [Nat.div_eq_of_lt hj]
      exact ⟨_, List.mem_cons_self⟩
    · have hlength : (l.drop n).length = l.length - n := List.length_drop
      obtain ⟨part, hpart⟩ := @ih (k + 1) (l.drop n) (j - n) (by omega) (by omega)
      refine ⟨part, List.mem_cons_of_mem _ ?_⟩
      have hindex : k + j / n = k + 1 + (j - n) / n := by
        rw [Nat.div_eq_sub_div hn (by omega)]
        omega
      rwa [hindex]

/-- Every element is in one of the chunks. -/
theorem mem_chunks {n : Nat} (hn : 0 < n) {l : List α} {j : Nat} (h : j < l.length) :
    ∃ part, (part, j / n) ∈ (chunks n l).zipIdx := by
  obtain ⟨part, hpart⟩ := mem_chunksFrom (k := 0) hn (Nat.le_refl l.length) h
  exact ⟨part, by rwa [Nat.zero_add] at hpart⟩

end Sunpack.Lib
