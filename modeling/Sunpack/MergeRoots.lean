import Sunpack.Lib.Separated
import Sunpack.PathKeys

/-!
# Reduced roots

`merge_roots` of `path_keys.rs`: of roots sorted by their keys only those stay that the last one kept is
no start of. With a separator at the end of each key the kept ones are a cover without a redundant root.
-/

namespace Sunpack.MergeRoots

open Lib

/-! ## Keeping what the last one does not begin -/

section Keep

variable {α β : Type*} [LinearOrder α]

/-- The body of the loop. -/
def keep (merged : List (List α × β)) (entry : List α × β) : List (List α × β) :=
  if merged.getLast?.any fun parent => parent.1.isPrefixOf entry.1 then merged else merged ++ [entry]

/-- No key in the list is the start of another one. -/
def Apart (merged : List (List α × β)) : Prop :=
  merged.Pairwise fun a b => a.1 ≤ b.1 ∧ ¬ a.1 <+: b.1

variable {merged es : List (List α × β)} {entry : List α × β}

/-- Sorted keys: if the last kept one is no start, none is. -/
theorem Apart.keep (h : Apart merged) (hle : ∀ a ∈ merged, a.1 ≤ entry.1) :
    Apart (keep merged entry) := by
  unfold MergeRoots.keep
  split_ifs with hlast
  · exact h
  refine List.pairwise_append.2 ⟨h, List.pairwise_singleton _ _, fun a ha b hb => ?_⟩
  obtain rfl := List.mem_singleton.1 hb
  refine ⟨hle a ha, fun hstart => ?_⟩
  obtain ⟨front, last, rfl⟩ := List.eq_nil_or_concat' merged |>.resolve_left (List.ne_nil_of_mem ha)
  rw [List.getLast?_concat, Option.any_some, List.isPrefixOf_iff_prefix] at hlast
  rcases List.mem_append.1 ha with hfront | hsame
  · have hpair := (List.pairwise_append.1 h).2.2 a hfront last (List.mem_singleton_self _)
    exact hpair.2 (prefix_of_le_of_le hpair.1
      (hle last (List.mem_append_right _ (List.mem_singleton_self _))) hstart)
  · obtain rfl := List.mem_singleton.1 hsame
    exact hlast hstart

theorem mem_keep (merged : List (List α × β)) (entry : List α × β) : entry ∈ keep merged entry ∨ ∃ parent ∈ merged, parent.1 <+: entry.1 := by
  unfold keep
  split_ifs with hlast
  · obtain ⟨parent, hparent, hstart⟩ := Option.any_eq_true _ _ |>.1 hlast
    exact .inr ⟨parent, List.mem_of_getLast? hparent, List.isPrefixOf_iff_prefix.1 hstart⟩
  · exact .inl (List.mem_append_right _ (List.mem_singleton_self _))

theorem subset_keep {a : List α × β} (h : a ∈ merged) : a ∈ keep merged entry := by
  unfold keep
  split_ifs
  · exact h
  · exact List.mem_append_left _ h

theorem of_mem_keep {a : List α × β} (h : a ∈ keep merged entry) : a ∈ merged ∨ a = entry := by
  unfold keep at h
  split_ifs at h
  · exact .inl h
  · exact (List.mem_append.1 h).imp_right List.mem_singleton.1

/-- At most one key in the list begins another list. -/
theorem Apart.get_inj (h : Apart merged) {k : List α} {i j : Fin merged.length}
    (hi : (merged.get i).1 <+: k) (hj : (merged.get j).1 <+: k) : i = j := by
  have hnot : ∀ i j : Fin merged.length, i < j → (merged.get i).1 <+: k → ¬ (merged.get j).1 <+: k := by
    intro i j hlt hi hj
    obtain ⟨hle, hstart⟩ := List.pairwise_iff_get.1 h i j hlt
    rcases List.prefix_or_prefix_of_prefix hi hj with hij | hji
    · exact hstart hij
    · obtain ⟨more, hmore⟩ := hji
      have heq := le_antisymm hle (hmore ▸ not_lt.1 List.le_append_left)
      exact hstart (heq ▸ List.prefix_rfl)
  rcases lt_trichotomy i j with hlt | heq | hlt
  · exact absurd hj (hnot i j hlt hi)
  · exact heq
  · exact absurd hi (hnot j i hlt hj)

/-- The loop on a sorted list: what it keeps is apart, comes from the list, and begins everything. -/
theorem foldl_keep (hsorted : es.Pairwise fun a b => a.1 ≤ b.1) (h : Apart merged)
    (hle : ∀ a ∈ merged, ∀ e ∈ es, a.1 ≤ e.1) :
    Apart (es.foldl keep merged) ∧ (∀ a ∈ merged, a ∈ es.foldl keep merged) ∧
      (∀ a ∈ es.foldl keep merged, a ∈ merged ∨ a ∈ es) ∧
      ∀ e ∈ es, ∃ parent ∈ es.foldl keep merged, parent.1 <+: e.1 := by
  induction es generalizing merged with
  | nil => exact ⟨h, fun _ ha => ha, fun _ ha => .inl ha, fun _ he => absurd he List.not_mem_nil⟩
  | cons entry es ih =>
    obtain ⟨hfirst, hrest⟩ := List.pairwise_cons.1 hsorted
    have hkeep := h.keep fun a ha => hle a ha entry List.mem_cons_self
    obtain ⟨hapart, hsub, hof, hcover⟩ := ih hrest hkeep fun a ha e he => by
      rcases of_mem_keep ha with ha | rfl
      · exact hle a ha e (List.mem_cons_of_mem _ he)
      · exact hfirst e he
    refine ⟨hapart, fun a ha => hsub a (subset_keep ha), fun a ha => ?_, fun e he => ?_⟩
    · rcases hof a ha with ha | ha
      · rcases of_mem_keep ha with ha | rfl
        · exact .inl ha
        · exact .inr List.mem_cons_self
      · exact .inr (List.mem_cons_of_mem _ ha)
    · rcases List.mem_cons.1 he with rfl | he
      · rcases mem_keep merged e with hkept | ⟨parent, hparent, hstart⟩
        · exact ⟨_, hsub _ hkept, List.prefix_rfl⟩
        · exact ⟨parent, hsub parent (subset_keep hparent), hstart⟩
      · exact hcover e he

end Keep

/-! ## Roots -/

/-- The key with one separator at its end. -/
def rootKey (key : Text) : Text := trimEnd '\\' key ++ ['\\']

def mergeRoots {α : Type*} (key : α → Text) (roots : List α) : List α :=
  let keyed := roots.map fun root => (rootKey (key root), root)
  let sorted := keyed.mergeSort fun left right => left.1 ≤ right.1
  (sorted.foldl keep []).map Prod.snd

/-- The names of a path: what its separators part, without those at its end. -/
def pathNames (T : DowncaseTable) (path : Text) : List Text :=
  (trimEnd '\\' (T.pathKey path)).splitOn '\\'

/-- The path is the root or lies under it. -/
def LiesUnder (T : DowncaseTable) (path root : Text) : Prop := pathNames T root <+: pathNames T path

theorem liesUnder_iff {T : DowncaseTable} {path root : Text} :
    LiesUnder T path root ↔ rootKey (T.pathKey root) <+: rootKey (T.pathKey path) := by
  rw [LiesUnder, pathNames, pathNames, splitOn_prefix_iff, under_iff_prefix, rootKey, rootKey,
    List.prefix_concat_iff, List.append_left_inj]

/-- The kept roots with their keys. -/
theorem exists_merged (T : DowncaseTable) (paths : List Text) :
    ∃ merged : List (Text × Text), mergeRoots T.pathKey paths = merged.map Prod.snd ∧ Apart merged ∧
      (∀ e ∈ merged, e.2 ∈ paths ∧ e.1 = rootKey (T.pathKey e.2)) ∧
      ∀ path ∈ paths, ∃ e ∈ merged, e.1 <+: rootKey (T.pathKey path) := by
  have hmem : ∀ e : Text × Text, e ∈ (paths.map fun root => (rootKey (T.pathKey root), root)).mergeSort
      (fun left right => left.1 ≤ right.1) ↔ e.2 ∈ paths ∧ e.1 = rootKey (T.pathKey e.2) := by
    intro e
    rw [List.mem_mergeSort, List.mem_map]
    constructor
    · rintro ⟨root, hroot, rfl⟩
      exact ⟨hroot, rfl⟩
    · rintro ⟨hroot, hkey⟩
      exact ⟨e.2, hroot, Prod.ext hkey.symm rfl⟩
  have hsorted : ((paths.map fun root => (rootKey (T.pathKey root), root)).mergeSort
      fun left right => left.1 ≤ right.1).Pairwise fun left right =>
        decide (left.1 ≤ right.1) = true := by
    apply List.pairwise_mergeSort
    · intro a b c hab hbc
      exact decide_eq_true ((of_decide_eq_true hab).trans (of_decide_eq_true hbc))
    · intro a b
      simpa using le_total a.1 b.1
  have hnil : Apart ([] : List (Text × Text)) := List.Pairwise.nil
  obtain ⟨hapart, -, hof, hcover⟩ := foldl_keep (hsorted.imp of_decide_eq_true) hnil
    fun a ha => absurd ha List.not_mem_nil
  refine ⟨_, rfl, hapart, fun e he => ?_, fun path hpath => ?_⟩
  · rcases hof e he with hnil | he
    · exact absurd hnil List.not_mem_nil
    · exact (hmem e).1 he
  · exact hcover _ ((hmem (rootKey (T.pathKey path), path)).2 ⟨hpath, rfl⟩)

/-- Each path is one of the roots or lies under it, and no root lies under another one. -/
theorem mergeRoots_spec (T : DowncaseTable) (paths : List Text) :
    (∀ path ∈ paths, ∃! i : Fin (mergeRoots T.pathKey paths).length,
      LiesUnder T path ((mergeRoots T.pathKey paths).get i)) ∧
    (∀ i j : Fin (mergeRoots T.pathKey paths).length,
      LiesUnder T ((mergeRoots T.pathKey paths).get i) ((mergeRoots T.pathKey paths).get j) → i = j) ∧
    ∀ root ∈ mergeRoots T.pathKey paths, root ∈ paths := by
  obtain ⟨merged, hroots, hapart, hkey, hcover⟩ := exists_merged T paths
  have hlength : merged.length = (mergeRoots T.pathKey paths).length := by
    rw [hroots, List.length_map]
  have hunder : ∀ (path : Text) (i : Fin merged.length),
      LiesUnder T path ((mergeRoots T.pathKey paths).get (i.cast hlength)) ↔
        (merged.get i).1 <+: rootKey (T.pathKey path) := by
    intro path i
    have hget : (mergeRoots T.pathKey paths).get (i.cast hlength) = (merged.get i).2 := by
      simp [hroots]
    rw [liesUnder_iff, hget, (hkey _ (List.get_mem _ _)).2]
  have hone : ∀ (path : Text) (i j : Fin (mergeRoots T.pathKey paths).length),
      LiesUnder T path ((mergeRoots T.pathKey paths).get i) →
        LiesUnder T path ((mergeRoots T.pathKey paths).get j) → i = j := by
    intro path i j hi hj
    have hcast := hapart.get_inj ((hunder path (i.cast hlength.symm)).1 hi)
      ((hunder path (j.cast hlength.symm)).1 hj)
    have hval : (i.cast hlength.symm).val = (j.cast hlength.symm).val := congrArg Fin.val hcast
    exact Fin.ext hval
  refine ⟨fun path hpath => ?_, fun i j h => hone _ i j List.prefix_rfl h, fun root hroot => ?_⟩
  · obtain ⟨e, he, hstart⟩ := hcover path hpath
    obtain ⟨i, rfl⟩ := List.get_of_mem he
    have hlies := (hunder path i).2 hstart
    exact ⟨i.cast hlength, hlies, fun j hj => hone path j (i.cast hlength) hj hlies⟩
  · rw [hroots] at hroot
    obtain ⟨e, he, rfl⟩ := List.mem_map.1 hroot
    exact (hkey e he).1

end Sunpack.MergeRoots
