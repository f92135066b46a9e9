import Mathlib

/-!
# Spaced intervals

Lists of half open intervals: what they cover, when they are kept apart in order, and how an
interval is merged into such a list.
-/

namespace Sunpack.Lib

variable {α : Type*} [LinearOrder α]

/-- What the intervals cover. -/
def covered (l : List (α × α)) : Set α := {x | ∃ r ∈ l, x ∈ Set.Ico r.1 r.2}

theorem mem_covered {l : List (α × α)} {x : α} :
    x ∈ covered l ↔ ∃ r ∈ l, r.1 ≤ x ∧ x < r.2 := Iff.rfl

@[simp] theorem covered_nil : covered ([] : List (α × α)) = ∅ := by
  ext x
  simp [mem_covered]

@[simp] theorem covered_cons (r : α × α) (l : List (α × α)) :
    covered (r :: l) = Set.Ico r.1 r.2 ∪ covered l := by
  ext x
  simp [mem_covered]

@[simp] theorem covered_append (k l : List (α × α)) : covered (k ++ l) = covered k ∪ covered l := by
  ext x
  simp [mem_covered, or_and_right, exists_or]

/-- Nonempty intervals in order, with room between any two. -/
structure Spaced (l : List (α × α)) : Prop where
  nonempty : ∀ r ∈ l, r.1 < r.2
  apart : l.Pairwise fun r s => r.2 < s.1

theorem Spaced.nil : Spaced ([] : List (α × α)) := ⟨by simp, List.Pairwise.nil⟩

theorem spaced_cons {r : α × α} {l : List (α × α)} :
    Spaced (r :: l) ↔ r.1 < r.2 ∧ (∀ s ∈ l, r.2 < s.1) ∧ Spaced l := by
  constructor
  · intro h
    obtain ⟨hfirst, hrest⟩ := List.pairwise_cons.1 h.apart
    exact ⟨h.nonempty r List.mem_cons_self, hfirst,
      fun s hs => h.nonempty s (List.mem_cons_of_mem r hs), hrest⟩
  · intro h
    exact ⟨List.forall_mem_cons.2 ⟨h.1, h.2.2.nonempty⟩, List.pairwise_cons.2 ⟨h.2.1, h.2.2.apart⟩⟩

theorem spaced_append {k l : List (α × α)} :
    Spaced (k ++ l) ↔ Spaced k ∧ Spaced l ∧ ∀ r ∈ k, ∀ s ∈ l, r.2 < s.1 := by
  constructor
  · intro h
    obtain ⟨hk, hl, hkl⟩ := List.pairwise_append.1 h.apart
    exact ⟨⟨fun r hr => h.nonempty r (List.mem_append_left l hr), hk⟩,
      ⟨fun r hr => h.nonempty r (List.mem_append_right k hr), hl⟩, hkl⟩
  · intro h
    refine ⟨fun r hr => ?_, List.pairwise_append.2 ⟨h.1.apart, h.2.1.apart, h.2.2⟩⟩
    rcases List.mem_append.1 hr with hr | hr
    · exact h.1.nonempty r hr
    · exact h.2.1.nonempty r hr

/-- Nothing below the first interval is covered. -/
theorem Spaced.notMem_of_lt {r : α × α} {l : List (α × α)} (h : Spaced (r :: l)) {x : α}
    (hx : x < r.1) : x ∉ covered (r :: l) := by
  obtain ⟨hr, hl, _⟩ := spaced_cons.1 h
  rintro ⟨s, hs, hsx⟩
  rcases List.mem_cons.1 hs with rfl | hs
  · exact absurd hsx.1 (not_le.2 hx)
  · exact absurd (lt_trans (lt_trans hr (hl s hs)) (lt_of_le_of_lt hsx.1 hx)) (lt_irrefl _)

/-! ## Searching by the ends -/

theorem Spaced.le_of_dropWhile {l : List (α × α)} (h : Spaced l) {begin : α} {r : α × α}
    (hr : r ∈ l.dropWhile fun r => r.2 < begin) : begin ≤ r.2 := by
  induction l with
  | nil => simp at hr
  | cons s l ih =>
    obtain ⟨_, hl, hspaced⟩ := spaced_cons.1 h
    by_cases hs : s.2 < begin
    · rw [List.dropWhile_cons_of_pos (by simpa using hs)] at hr
      exact ih hspaced hr
    · rw [List.dropWhile_cons_of_neg (by simpa using hs)] at hr
      rcases List.mem_cons.1 hr with rfl | hr
      · exact not_lt.1 hs
      · exact le_trans (not_lt.1 hs)
          (le_of_lt (lt_trans (hl r hr) (hspaced.nonempty r hr)))

/-- The first interval that ends behind a point decides whether the point is covered. -/
theorem Spaced.mem_covered_of_find {l : List (α × α)} (h : Spaced l) {r : α × α} {offset x : α}
    (hfind : l.find? (fun r => offset < r.2) = some r) (hoffset : offset ≤ x) (hx : x < r.2) :
    x ∈ covered l ↔ r.1 ≤ x := by
  obtain ⟨_, front, back, rfl, hfront⟩ := List.find?_eq_some_iff_append.1 hfind
  constructor
  · rintro ⟨s, hs, hsx⟩
    rcases List.mem_append.1 hs with hs | hs
    · have hle : s.2 ≤ offset := by simpa using hfront s hs
      exact absurd (lt_of_lt_of_le hsx.2 (le_trans hle hoffset)) (lt_irrefl x)
    · rcases List.mem_cons.1 hs with rfl | hs
      · exact hsx.1
      · have hlt := (spaced_cons.1 (spaced_append.1 h).2.1).2.1 s hs
        exact absurd (lt_trans hx (lt_of_lt_of_le hlt hsx.1)) (lt_irrefl x)
  · intro hrx
    exact ⟨r, List.mem_append_right front List.mem_cons_self, hrx, hx⟩

theorem notMem_covered_of_find {l : List (α × α)} {offset x : α}
    (hfind : l.find? (fun r => offset < r.2) = none) (hoffset : offset ≤ x) : x ∉ covered l := by
  rintro ⟨s, hs, hsx⟩
  have hle : ¬ offset < s.2 := by simpa using List.find?_eq_none.1 hfind s hs
  exact hle (lt_of_le_of_lt hoffset hsx.2)

/-! ## Merging -/

/-- The interval grown over the front of the list, and what the list keeps. -/
def mergeInto (begin stop : α) : List (α × α) → (α × α) × List (α × α)
  | [] => ((begin, stop), [])
  | r :: l =>
    if r.1 ≤ stop then mergeInto (min begin r.1) (max stop r.2) l else ((begin, stop), r :: l)

theorem mergeInto_cons_pos {begin stop : α} {r : α × α} (l : List (α × α)) (h : r.1 ≤ stop) :
    mergeInto begin stop (r :: l) = mergeInto (min begin r.1) (max stop r.2) l := by
  rw [mergeInto, if_pos h]

theorem mergeInto_cons_neg {begin stop : α} {r : α × α} (l : List (α × α)) (h : ¬ r.1 ≤ stop) :
    mergeInto begin stop (r :: l) = ((begin, stop), r :: l) := by
  rw [mergeInto, if_neg h]

/-- Intervals which meet from the left are one. -/
theorem Ico_union_of_meet {a b c d : α} (hab : a < b) (hcd : c < d) (had : a ≤ d) (hcb : c ≤ b) :
    Set.Ico (min a c) (max b d) = Set.Ico a b ∪ Set.Ico c d := by
  rw [Set.Ico_union_Ico (by rwa [min_eq_left hab.le, max_eq_right hcd.le])
    (by rwa [min_eq_left hcd.le, max_eq_right hab.le])]

/-- The merged list covers what both covered, and its intervals are apart again. -/
theorem mergeInto_spec {begin stop : α} {l : List (α × α)} (hne : begin < stop) (h : Spaced l)
    (hbegin : ∀ r ∈ l, begin ≤ r.2) :
    Spaced ((mergeInto begin stop l).1 :: (mergeInto begin stop l).2) ∧
      covered ((mergeInto begin stop l).1 :: (mergeInto begin stop l).2) =
        Set.Ico begin stop ∪ covered l := by
  induction l generalizing begin stop with
  | nil => exact ⟨spaced_cons.2 ⟨hne, by simp [mergeInto], Spaced.nil⟩, by simp [mergeInto]⟩
  | cons r l ih =>
    obtain ⟨hr, hl, hspaced⟩ := spaced_cons.1 h
    by_cases hmeet : r.1 ≤ stop
    · rw [mergeInto_cons_pos l hmeet]
      have hbr : begin ≤ r.2 := hbegin r List.mem_cons_self
      have hgrown : min begin r.1 < max stop r.2 := by
        exact lt_of_le_of_lt (min_le_left _ _) (lt_of_lt_of_le hne (le_max_left _ _))
      obtain ⟨hout, hcov⟩ := ih hgrown hspaced fun s hs =>
        le_trans (min_le_left _ _) (hbegin s (List.mem_cons_of_mem r hs))
      refine ⟨hout, ?_⟩
      rw [hcov, Ico_union_of_meet hne hr hbr hmeet, covered_cons, Set.union_assoc]
    · rw [mergeInto_cons_neg l hmeet]
      refine ⟨spaced_cons.2 ⟨hne, fun s hs => ?_, h⟩, by rw [covered_cons]⟩
      have hstop : stop < r.1 := not_le.1 hmeet
      rcases List.mem_cons.1 hs with rfl | hs
      · exact hstop
      · exact lt_trans hstop (lt_trans hr (hl s hs))

/-- The grown interval starts where the first of the two started. -/
theorem le_mergeInto_begin {a begin stop : α} {l : List (α × α)} (hbegin : a < begin)
    (h : ∀ r ∈ l, a < r.1) : a < (mergeInto begin stop l).1.1 := by
  induction l generalizing begin stop with
  | nil => exact hbegin
  | cons r l ih =>
    by_cases hmeet : r.1 ≤ stop
    · rw [mergeInto_cons_pos l hmeet]
      exact ih (lt_min hbegin (h r List.mem_cons_self)) fun s hs => h s (List.mem_cons_of_mem r hs)
    · rw [mergeInto_cons_neg l hmeet]
      exact hbegin

/-- Where nothing starts before it, the interval keeps its start. -/
theorem mergeInto_begin {begin stop : α} {l : List (α × α)} (h : ∀ r ∈ l, begin ≤ r.1) :
    (mergeInto begin stop l).1.1 = begin := by
  induction l generalizing stop with
  | nil => rfl
  | cons r l ih =>
    by_cases hmeet : r.1 ≤ stop
    · rw [mergeInto_cons_pos l hmeet, min_eq_left (h r List.mem_cons_self)]
      exact ih fun s hs => h s (List.mem_cons_of_mem r hs)
    · rw [mergeInto_cons_neg l hmeet]

theorem mergeInto_subset {begin stop : α} {l : List (α × α)} {r : α × α}
    (hr : r ∈ (mergeInto begin stop l).2) : r ∈ l := by
  induction l generalizing begin stop with
  | nil => exact hr
  | cons s l ih =>
    by_cases hmeet : s.1 ≤ stop
    · rw [mergeInto_cons_pos l hmeet] at hr
      exact List.mem_cons_of_mem s (ih hr)
    · rwa [mergeInto_cons_neg l hmeet] at hr

theorem mergeInto_stop_lt {c begin stop : α} {l : List (α × α)} (hstop : stop < c)
    (h : ∀ r ∈ l, r.2 < c) : (mergeInto begin stop l).1.2 < c := by
  induction l generalizing begin stop with
  | nil => exact hstop
  | cons r l ih =>
    by_cases hmeet : r.1 ≤ stop
    · rw [mergeInto_cons_pos l hmeet]
      exact ih (max_lt hstop (h r List.mem_cons_self)) fun s hs => h s (List.mem_cons_of_mem r hs)
    · rw [mergeInto_cons_neg l hmeet]
      exact hstop

/-! ## Measuring -/

/-- How much intervals of naturals cover. -/
def totalLength (l : List (Nat × Nat)) : Nat := (l.map fun r => r.2 - r.1).sum

theorem totalLength_eq_ncard {l : List (Nat × Nat)} (h : Spaced l) :
    totalLength l = (covered l).ncard ∧ (covered l).Finite := by
  induction l with
  | nil => exact ⟨by simp [totalLength], by simp⟩
  | cons r l ih =>
    obtain ⟨hr, hl, hspaced⟩ := spaced_cons.1 h
    obtain ⟨hlength, hfin⟩ := ih hspaced
    have hdisjoint : Disjoint (Set.Ico r.1 r.2) (covered l) := by
      rw [Set.disjoint_left]
      rintro x hx ⟨s, hs, hsx⟩
      exact absurd (lt_trans hx.2 (hl s hs)) (not_lt.2 hsx.1)
    have hico : (Set.Ico r.1 r.2).Finite := Set.finite_Ico r.1 r.2
    refine ⟨?_, by rw [covered_cons]; exact hico.union hfin⟩
    rw [covered_cons, Set.ncard_union_eq hdisjoint hico hfin, ← hlength, ← Finset.coe_Ico,
      Set.ncard_coe_finset, Nat.card_Ico]
    rfl

end Sunpack.Lib
