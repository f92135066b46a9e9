import Sunpack.Cleanup.RefTable

/-!
# Counts and the loop of `_pop`

What dropping, adding and releasing paths does to the counts and to the vetoes of the table, for any
counts that are a function of the keys.
-/

namespace Sunpack.Cleanup

open Lib

variable (absolutePathKey : Text → Text)

/-! ## The paths of a task -/

theorem addCandidate_keys {unique : Dict Text Text}
    (h : unique.values.map absolutePathKey = unique.keys) (path : Text) :
    (addCandidate absolutePathKey unique path).values.map absolutePathKey =
      (addCandidate absolutePathKey unique path).keys := by
  unfold addCandidate
  split_ifs with hskip
  · exact h
  simp only [Bool.or_eq_true, not_or, Option.not_isSome_iff_eq_none] at hskip
  rw [Dict.values_set_new hskip.2, Dict.keys_set_new hskip.2, List.map_append, h]
  rfl

theorem cleanupPathsFor_nodup (task : Task) :
    ((cleanupPathsFor absolutePathKey task).map absolutePathKey).Nodup := by
  have hfold (candidates : List Text) (unique : Dict Text Text)
      (hkeys : unique.values.map absolutePathKey = unique.keys) :
      (candidates.foldl (addCandidate absolutePathKey) unique).values.map absolutePathKey =
        (candidates.foldl (addCandidate absolutePathKey) unique).keys := by
    induction candidates generalizing unique with
    | nil => exact hkeys
    | cons path candidates ih => exact ih _ (addCandidate_keys absolutePathKey hkeys path)
  have hkeys := hfold (if task.cleanupParts ≠ [] then task.cleanupParts else task.allParts) ∅ rfl
  rw [cleanupPathsFor]
  exact hkeys ▸ Dict.nodup _

/-! ## Counts -/

/-- The counts are the function `f`, with nothing stored where it is zero. -/
def Counted (counts : Dict Text Int) (f : Text → Nat) : Prop :=
  ∀ key, counts.get? key = if f key = 0 then none else some (f key : Int)

theorem Counted.set {counts : Dict Text Int} {f g : Text → Nat} (h : Counted counts f) {key : Text}
    {count : Int} (hcount : count = g key) (hpos : g key ≠ 0) (hother : ∀ k, k ≠ key → g k = f k) :
    Counted (counts.set key count) g := by
  intro k
  by_cases hk : k = key
  · subst hk
    rw [Dict.get?_set_self, if_neg hpos, hcount]
  · rw [Dict.get?_set_of_ne _ hk, h k, hother k hk]

theorem Counted.erase {counts : Dict Text Int} {f g : Text → Nat} (h : Counted counts f) {key : Text}
    (hzero : g key = 0) (hother : ∀ k, k ≠ key → g k = f k) : Counted (counts.erase key) g := by
  intro k
  by_cases hk : k = key
  · subst hk
    rw [Dict.get?_erase_self, if_pos hzero]
  · rw [Dict.get?_erase_of_ne _ hk, h k, hother k hk]

/-- One holder fewer for the keys of a list. -/
def less (f : Text → Nat) (keys : List Text) (key : Text) : Nat :=
  if key ∈ keys then f key - 1 else f key

theorem less_cons {f : Text → Nat} {key : Text} {keys : List Text} (hnodup : key ∉ keys) :
    less f (key :: keys) = less (less f [key]) keys := by
  funext k
  simp only [less, List.mem_cons, List.not_mem_nil, or_false]
  by_cases hk : k = key
  · subst hk
    simp [hnodup]
  · simp [hk]

theorem less_of_not_mem {f : Text → Nat} {key : Text} {keys : List Text} (h : key ∉ keys) :
    less f keys key = f key :=
  if_neg h

variable {absolutePathKey}

theorem dropKey_counted {t : CleanupRefTable} {f : Text → Nat} (h : Counted t.counts f)
    {key : Text} (hpos : 0 < f key) :
    ∃ t', t.dropKey key = .ok t' ∧ Counted t'.counts (less f [key]) ∧ t'.owned = t.owned ∧
      ∀ k, k ∈ t'.preserved ↔ k ∈ t.preserved ∧ (k = key → f key ≠ 1) := by
  have hself : less f [key] key = f key - 1 := if_pos (List.mem_singleton.2 rfl)
  have hother (k : Text) (hk : k ≠ key) : less f [key] k = f k :=
    if_neg fun hmem => hk (List.mem_singleton.1 hmem)
  rw [CleanupRefTable.dropKey, h key, if_neg (by omega)]
  by_cases hone : f key = 1
  · refine ⟨_, if_pos (by omega), h.erase (by omega) hother, rfl, fun k => ?_⟩
    rw [Finset.mem_erase, and_comm]
    simp [hone]
  · refine ⟨_, if_neg (by omega), h.set (by omega) (by omega) hother, rfl, fun k => ?_⟩
    simp [hone]

theorem dropKeys_counted {keys : List Text} (hnodup : keys.Nodup) {t : CleanupRefTable}
    {f : Text → Nat} (h : Counted t.counts f) (hpos : ∀ key ∈ keys, 0 < f key) :
    ∃ t', keys.foldlM CleanupRefTable.dropKey t = .ok t' ∧ Counted t'.counts (less f keys) ∧
      t'.owned = t.owned ∧ ∀ k, k ∈ t'.preserved ↔ k ∈ t.preserved ∧ (k ∈ keys → f k ≠ 1) := by
  induction keys generalizing t f with
  | nil => exact ⟨t, rfl, h, rfl, by simp⟩
  | cons key keys ih =>
    obtain ⟨hkey, hnodup⟩ := List.nodup_cons.1 hnodup
    obtain ⟨t₁, hdrop, h₁, howned₁, hpres₁⟩ := dropKey_counted h (hpos key List.mem_cons_self)
    have hsame (k : Text) (hk : k ∈ keys) : less f [key] k = f k :=
      less_of_not_mem fun hmem => hkey (List.mem_singleton.1 hmem ▸ hk)
    obtain ⟨t₂, hdrops, h₂, howned₂, hpres₂⟩ := ih hnodup h₁ fun k hk => by
      rw [hsame k hk]
      exact hpos k (List.mem_cons_of_mem _ hk)
    refine ⟨t₂, ?_, less_cons hkey ▸ h₂, howned₂.trans howned₁, fun k => ?_⟩
    · rw [List.foldlM_cons, hdrop]
      exact hdrops
    rw [hpres₂, hpres₁, and_assoc, List.mem_cons]
    constructor
    · rintro ⟨hmem, hfirst, hrest⟩
      refine ⟨hmem, ?_⟩
      rintro (rfl | hk)
      · exact hfirst rfl
      · rw [← hsame k hk]
        exact hrest hk
    · rintro ⟨hmem, hall⟩
      refine ⟨hmem, fun heq => heq ▸ hall (.inl heq), fun hk => ?_⟩
      rw [hsame k hk]
      exact hall (.inr hk)

/-- One holder more for the keys of a list. -/
def more (f : Text → Nat) (keys : List Text) (key : Text) : Nat :=
  if key ∈ keys then f key + 1 else f key

theorem addKeys_counted {keys : List Text} (hnodup : keys.Nodup) {t : CleanupRefTable}
    {f : Text → Nat} (h : Counted t.counts f) :
    Counted (keys.foldl CleanupRefTable.addKey t).counts (more f keys) ∧
      (keys.foldl CleanupRefTable.addKey t).owned = t.owned ∧
      (keys.foldl CleanupRefTable.addKey t).preserved = t.preserved := by
  induction keys generalizing t f with
  | nil => exact ⟨h, rfl, rfl⟩
  | cons key keys ih =>
    obtain ⟨hkey, hnodup⟩ := List.nodup_cons.1 hnodup
    have hself : more f [key] key = f key + 1 := if_pos (List.mem_singleton.2 rfl)
    have hother (k : Text) (hk : k ≠ key) : more f [key] k = f k :=
      if_neg fun hmem => hk (List.mem_singleton.1 hmem)
    have hcount : (t.counts.get? key).getD 0 + 1 = (more f [key] key : Int) := by
      rw [h key, hself]
      split_ifs with hzero
      · simp [hzero]
      · simp
    have hadded : Counted (t.addKey key).counts (more f [key]) :=
      h.set hcount (by omega) hother
    obtain ⟨hcounted, howned, hpreserved⟩ := ih hnodup hadded
    have hmore : more f (key :: keys) = more (more f [key]) keys := by
      funext k
      simp only [more, List.mem_cons, List.not_mem_nil, or_false]
      by_cases hk : k = key
      · subst hk
        simp [hkey]
      · simp [hk]
    exact ⟨hmore ▸ hcounted, howned, hpreserved⟩

/-! ## Releasing an owner -/

open CleanupRefTable (Popping)

variable (absolutePathKey)

/-- What the loop of `_pop` does to the counts `f`. -/
structure Popped (eligible : Bool) (f : Text → Nat) (paths : List Text) (p p' : Popping) :
    Prop where
  counted : Counted p'.table.counts (less f (paths.map absolutePathKey))
  owned : p'.table.owned = p.table.owned
  preserved : ∀ key, key ∈ p'.table.preserved ↔
    (key ∈ p.table.preserved ∨ (key ∈ paths.map absolutePathKey ∧ eligible = false)) ∧
      (key ∈ paths.map absolutePathKey → f key ≠ 1)
  zeroed : ∀ path, path ∈ p'.zeroed ↔
    path ∈ p.zeroed ∨ (path ∈ paths ∧ f (absolutePathKey path) = 1)
  cleanupPaths : ∀ path, path ∈ p'.cleanupPaths ↔
    path ∈ p.cleanupPaths ∨ (path ∈ paths ∧ f (absolutePathKey path) = 1 ∧ eligible = true ∧
      absolutePathKey path ∉ p.table.preserved)

variable {absolutePathKey}

theorem popPath_popped {f : Text → Nat} {p : Popping} (eligible : Bool)
    (h : Counted p.table.counts f) {path : Text} (hpos : 0 < f (absolutePathKey path)) :
    Popped absolutePathKey eligible f [path] p
      (CleanupRefTable.popPath absolutePathKey eligible p path) := by
  have hself : less f [absolutePathKey path] (absolutePathKey path) =
      f (absolutePathKey path) - 1 := if_pos (List.mem_singleton.2 rfl)
  have hother (k : Text) (hk : k ≠ absolutePathKey path) :
      less f [absolutePathKey path] k = f k :=
    if_neg fun hmem => hk (List.mem_singleton.1 hmem)
  have hget : (p.table.counts.get? (absolutePathKey path)).getD 0 - 1 =
      (f (absolutePathKey path) : Int) - 1 := by
    rw [h, if_neg (by omega), Option.getD_some]
  rw [CleanupRefTable.popPath]
  simp only [hget]
  by_cases hone : f (absolutePathKey path) = 1
  · rw [if_neg (by omega)]
    have hcounted := h.erase (g := less f [absolutePathKey path]) (by omega) hother
    refine ⟨hcounted, rfl, fun key => ?_, fun q => ?_, fun q => ?_⟩
    · rw [Finset.mem_erase, List.map_singleton, List.mem_singleton]
      constructor
      · rintro ⟨hne, hmem⟩
        exact ⟨.inl hmem, fun heq => absurd heq hne⟩
      · rintro ⟨hor, himp⟩
        have hne : key ≠ absolutePathKey path := fun heq => himp heq (heq ▸ hone)
        exact ⟨hne, hor.resolve_right fun hkey => hne hkey.1⟩
    · rw [List.mem_append, List.mem_singleton]
      constructor
      · rintro (hq | rfl)
        · exact .inl hq
        · exact .inr ⟨rfl, hone⟩
      · rintro (hq | ⟨hq, _⟩)
        · exact .inl hq
        · exact .inr hq
    · simp only [Bool.and_eq_true, decide_eq_true_eq]
      split_ifs with hclean
      · rw [List.mem_append, List.mem_singleton]
        constructor
        · rintro (hq | rfl)
          · exact .inl hq
          · exact .inr ⟨rfl, hone, hclean⟩
        · rintro (hq | ⟨hq, _⟩)
          · exact .inl hq
          · exact .inr hq
      · refine ⟨.inl, ?_⟩
        rintro (hq | ⟨hq, _, hclean'⟩)
        · exact hq
        · rw [List.mem_singleton.1 hq] at hclean'
          exact absurd hclean' hclean
  · rw [if_pos (by omega)]
    have hcount : (f (absolutePathKey path) : Int) - 1 =
        less f [absolutePathKey path] (absolutePathKey path) := by omega
    have hcounted := h.set hcount (by omega) hother
    refine ⟨hcounted, rfl, fun key => ?_, fun q => ?_, fun q => ?_⟩
    · rw [List.map_singleton, List.mem_singleton]
      have himp : key = absolutePathKey path → f key ≠ 1 := fun heq => heq ▸ hone
      cases eligible with
      | true =>
        simp only [if_true, Bool.true_eq_false, and_false, or_false]
        exact ⟨fun hmem => ⟨hmem, himp⟩, And.left⟩
      | false =>
        simp only [Bool.false_eq_true, if_false, Finset.mem_insert, and_true]
        rw [or_comm]
        exact ⟨fun hor => ⟨hor, himp⟩, And.left⟩
    · refine ⟨.inl, ?_⟩
      rintro (hq | ⟨hq, hq'⟩)
      · exact hq
      · exact absurd (List.mem_singleton.1 hq ▸ hq') hone
    · refine ⟨.inl, ?_⟩
      rintro (hq | ⟨hq, hq', _⟩)
      · exact hq
      · exact absurd (List.mem_singleton.1 hq ▸ hq') hone

theorem popPaths_popped (eligible : Bool) {paths : List Text}
    (hnodup : (paths.map absolutePathKey).Nodup) {f : Text → Nat} {p : Popping}
    (h : Counted p.table.counts f) (hpos : ∀ path ∈ paths, 0 < f (absolutePathKey path)) :
    Popped absolutePathKey eligible f paths p
      (paths.foldl (CleanupRefTable.popPath absolutePathKey eligible) p) := by
  induction paths generalizing p f with
  | nil => exact ⟨h, rfl, by simp, by simp, by simp⟩
  | cons path paths ih =>
    rw [List.map_cons, List.nodup_cons] at hnodup
    have hfirst := popPath_popped eligible h (hpos path List.mem_cons_self)
    have hne {q : Text} (hq : q ∈ paths) : absolutePathKey q ≠ absolutePathKey path :=
      fun heq => hnodup.1 (heq ▸ List.mem_map_of_mem hq)
    have hsame {q : Text} (hq : q ∈ paths) :
        less f [absolutePathKey path] (absolutePathKey q) = f (absolutePathKey q) :=
      less_of_not_mem fun hmem => hne hq (List.mem_singleton.1 hmem)
    have hsameKey {key : Text} (hk : key ∈ paths.map absolutePathKey) :
        less f [absolutePathKey path] key = f key := by
      obtain ⟨q, hq, rfl⟩ := List.mem_map.1 hk
      exact hsame hq
    have hrest := ih hnodup.2 hfirst.counted fun q hq => by
      rw [List.map_singleton, hsame hq]
      exact hpos q (List.mem_cons_of_mem _ hq)
    rw [List.map_singleton] at hrest
    rw [List.foldl_cons]
    refine ⟨?_, hrest.owned.trans hfirst.owned, fun key => ?_, fun q => ?_, fun q => ?_⟩
    · rw [List.map_cons, less_cons hnodup.1]
      exact hrest.counted
    · simp only [hrest.preserved, hfirst.preserved, List.map_cons, List.map_nil, List.mem_cons,
        List.not_mem_nil, or_false]
      by_cases hk : key ∈ paths.map absolutePathKey
      · have hkey : key ≠ absolutePathKey path := fun heq => hnodup.1 (heq ▸ hk)
        simp [hk, hkey, hsameKey hk]
      · simp only [hk, false_and, or_false, false_imp_iff, and_true]
    · simp only [hrest.zeroed, hfirst.zeroed, List.mem_cons, List.not_mem_nil, or_false]
      by_cases hq : q ∈ paths
      · have hqne : q ≠ path := fun heq => hne hq (congrArg absolutePathKey heq)
        simp only [hq, hqne, hsame hq, false_and, or_false, true_and, false_or]
      · simp only [hq, false_and, or_false]
    · simp only [hrest.cleanupPaths, hfirst.cleanupPaths, hfirst.preserved, List.map_cons,
        List.map_nil, List.mem_cons, List.not_mem_nil, or_false]
      by_cases hq : q ∈ paths
      · have hqne : q ≠ path := fun heq => hne hq (congrArg absolutePathKey heq)
        simp only [hq, hqne, hsame hq, hne hq, false_and, or_false, true_and, false_or,
          false_imp_iff, and_true]
      · simp only [hq, false_and, or_false]

end Sunpack.Cleanup
