import Mathlib.Data.List.Sort
import Mathlib.Order.Basic

/-!
# Sweeping intervals with owners

Intervals are taken by their start. The sweep keeps one frontier, the furthest end so far and its
owner, and flags two owners when an interval of one starts before the frontier of the other one.
`mem_sweep`: on intervals that are not empty it flags exactly the owners whose interval meets an
interval of another owner.
-/

namespace Sunpack.Lib

variable {τ ι : Type*}

/-- The points from `start` on and before `stop`. -/
structure Extent (τ ι : Type*) where
  start : τ
  stop : τ
  owner : ι
deriving DecidableEq, Repr

/-- Two intervals have a point in common. -/
def Extent.Meet [Preorder τ] (a b : Extent τ ι) : Prop :=
  ∃ x, (a.start ≤ x ∧ x < a.stop) ∧ b.start ≤ x ∧ x < b.stop

theorem Extent.Meet.symm [Preorder τ] {a b : Extent τ ι} (h : a.Meet b) : b.Meet a := by
  obtain ⟨x, ha, hb⟩ := h
  exact ⟨x, hb, ha⟩

structure Sweep (τ ι : Type*) where
  frontier : Option (τ × ι) := none
  flagged : List ι := []

variable [LinearOrder τ]

section Turn

variable [DecidableEq ι]

def Sweep.turn (s : Sweep τ ι) (e : Extent τ ι) : Sweep τ ι :=
  match s.frontier with
  | none => { s with frontier := some (e.stop, e.owner) }
  | some (stop, owner) =>
    { frontier := if stop < e.stop then some (e.stop, e.owner) else some (stop, owner)
      flagged := if e.start < stop ∧ owner ≠ e.owner then s.flagged ++ [owner, e.owner]
        else s.flagged }

def sweep (extents : List (Extent τ ι)) : List ι := (extents.foldl Sweep.turn {}).flagged

end Turn

/-! ## What the sweep knows -/

/-- An owner is flagged by two of the intervals. -/
def Clash (done : List (Extent τ ι)) (i : ι) : Prop :=
  ∃ a ∈ done, a.owner = i ∧ ∃ b ∈ done, b.owner ≠ i ∧ a.Meet b

/-- After some of the intervals: the frontier is the end of one of them, past all others. -/
structure Swept (done : List (Extent τ ι)) (s : Sweep τ ι) : Prop where
  first : s.frontier = none → done = []
  furthest : ∀ stop owner, s.frontier = some (stop, owner) →
    (∃ f ∈ done, f.stop = stop ∧ f.owner = owner) ∧ ∀ e ∈ done, e.stop ≤ stop
  flagged : ∀ i, i ∈ s.flagged ↔ Clash done i

theorem Clash.mono {done : List (Extent τ ι)} {e : Extent τ ι} {i : ι} (h : Clash done i) :
    Clash (done ++ [e]) i := by
  obtain ⟨a, ha, hi, b, hb, hne, hmeet⟩ := h
  exact ⟨a, List.mem_append_left _ ha, hi, b, List.mem_append_left _ hb, hne, hmeet⟩

/-- An owner of an earlier interval clashes by a new one with its owner or by the frontier. -/
theorem Clash.of_meet {done : List (Extent τ ι)} {a e f : Extent τ ι} (ha : a ∈ done) (hf : f ∈ done)
    (hle : ∀ d ∈ done, d.start ≤ e.start) (hstop : ∀ d ∈ done, d.stop ≤ f.stop) (hmeet : a.Meet e) :
    e.start < f.stop ∧ (a.owner = f.owner ∨ Clash done a.owner ∧ Clash done f.owner) := by
  obtain ⟨x, ⟨_, hax⟩, hex, _⟩ := hmeet
  have hstart : e.start < a.stop := lt_of_le_of_lt hex hax
  have hin : e.start < f.stop := lt_of_lt_of_le hstart (hstop a ha)
  -- both contain the start of the new interval
  have haf : a.Meet f := ⟨e.start, ⟨hle a ha, hstart⟩, hle f hf, hin⟩
  refine ⟨hin, ?_⟩
  by_cases how : a.owner = f.owner
  · exact Or.inl how
  · exact Or.inr ⟨⟨a, ha, rfl, f, hf, Ne.symm how, haf⟩, f, hf, rfl, a, ha, how, haf.symm⟩

theorem Swept.nil : Swept ([] : List (Extent τ ι)) {} where
  first _ := rfl
  furthest stop owner h := by simp at h
  flagged i := by simp [Clash]

variable [DecidableEq ι]

theorem Swept.turn {done : List (Extent τ ι)} {s : Sweep τ ι} (h : Swept done s) {e : Extent τ ι}
    (hle : ∀ d ∈ done, d.start ≤ e.start) (hne : e.start < e.stop) :
    Swept (done ++ [e]) (s.turn e) := by
  rw [Sweep.turn]
  split
  · rename_i hnone
    have hdone := h.first hnone
    subst hdone
    refine ⟨fun hcontra => by simp at hcontra, fun stop owner hfront => ?_, fun i => ?_⟩
    · obtain ⟨rfl, rfl⟩ := Prod.mk.inj (Option.some.inj hfront)
      simp
    · rw [h.flagged i]
      refine ⟨fun hclash => hclash.mono, ?_⟩
      rintro ⟨a, ha, rfl, b, hb, how, _⟩
      simp only [List.nil_append, List.mem_singleton] at ha hb
      exact absurd (hb.trans ha.symm ▸ rfl) how
  · rename_i stop owner hfront
    obtain ⟨⟨f, hf, rfl, rfl⟩, hall⟩ := h.furthest stop owner hfront
    refine ⟨fun hcontra => ?_, fun stop' owner' hfront' => ?_, fun i => ?_⟩
    · dsimp only at hcontra
      split_ifs at hcontra
    · dsimp only at hfront'
      split_ifs at hfront' with hlt
      · obtain ⟨rfl, rfl⟩ := Prod.mk.inj (Option.some.inj hfront')
        refine ⟨⟨e, by simp, rfl, rfl⟩, fun d hd => ?_⟩
        rcases List.mem_append.1 hd with hd | hd
        · exact le_trans (hall d hd) hlt.le
        · rw [List.mem_singleton.1 hd]
      · obtain ⟨rfl, rfl⟩ := Prod.mk.inj (Option.some.inj hfront')
        refine ⟨⟨f, List.mem_append_left _ hf, rfl, rfl⟩, fun d hd => ?_⟩
        rcases List.mem_append.1 hd with hd | hd
        · exact hall d hd
        · rw [List.mem_singleton.1 hd]
          exact not_lt.1 hlt
    · dsimp only
      constructor
      · intro hi
        split_ifs at hi with hclash
        · obtain ⟨hlt, how⟩ := hclash
          have hmeet : f.Meet e := ⟨e.start, ⟨hle f hf, hlt⟩, le_refl _, hne⟩
          have hf' : f ∈ done ++ [e] := List.mem_append_left _ hf
          have he' : e ∈ done ++ [e] := by simp
          rcases List.mem_append.1 hi with hi | hi
          · exact ((h.flagged i).1 hi).mono
          · rcases List.mem_cons.1 hi with rfl | hi
            · exact ⟨f, hf', rfl, e, he', Ne.symm how, hmeet⟩
            · rw [List.mem_singleton.1 hi]
              exact ⟨e, he', rfl, f, hf', how, hmeet.symm⟩
        · exact ((h.flagged i).1 hi).mono
      · rintro ⟨a, ha, rfl, b, hb, how, hmeet⟩
        have hkeep : a.owner ∈ s.flagged → a.owner ∈ (if e.start < f.stop ∧ f.owner ≠ e.owner then
            s.flagged ++ [f.owner, e.owner] else s.flagged) := by
          intro hmem
          split_ifs
          · exact List.mem_append_left _ hmem
          · exact hmem
        rcases List.mem_append.1 ha with hda | hea
        · rcases List.mem_append.1 hb with hdb | heb
          · exact hkeep ((h.flagged _).2 ⟨a, hda, rfl, b, hdb, how, hmeet⟩)
          · obtain rfl := List.mem_singleton.1 heb
            obtain ⟨hin, heq | ⟨hclash, _⟩⟩ := Clash.of_meet hda hf hle hall hmeet
            · rw [if_pos ⟨hin, heq ▸ Ne.symm how⟩]
              simp [heq]
            · exact hkeep ((h.flagged _).2 hclash)
        · obtain rfl := List.mem_singleton.1 hea
          rcases List.mem_append.1 hb with hdb | heb
          · obtain ⟨hin, hcases⟩ := Clash.of_meet hdb hf hle hall hmeet.symm
            by_cases hown : f.owner = a.owner
            · rcases hcases with heq | ⟨_, hclash⟩
              · exact absurd (heq.trans hown) how
              · exact hkeep ((h.flagged _).2 (hown ▸ hclash))
            · rw [if_pos ⟨hin, hown⟩]
              simp
          · exact absurd (congrArg Extent.owner (List.mem_singleton.1 heb)) how

theorem Swept.foldl (extents : List (Extent τ ι)) {done : List (Extent τ ι)} {s : Sweep τ ι}
    (h : Swept done s) (hsorted : (done ++ extents).Pairwise fun a b => a.start ≤ b.start)
    (hne : ∀ e ∈ extents, e.start < e.stop) :
    Swept (done ++ extents) (extents.foldl Sweep.turn s) := by
  induction extents generalizing done s with
  | nil =>
    rw [List.append_nil]
    exact h
  | cons e extents ih =>
    have hle : ∀ d ∈ done, d.start ≤ e.start := fun d hd =>
      (List.pairwise_append.1 hsorted).2.2 d hd e List.mem_cons_self
    have hassoc : done ++ e :: extents = done ++ [e] ++ extents := by simp
    rw [hassoc] at hsorted ⊢
    exact ih (h.turn hle (hne e List.mem_cons_self)) hsorted
      fun d hd => hne d (List.mem_cons_of_mem _ hd)

/-- The sweep of sorted intervals flags the owners that clash. -/
theorem mem_sweep {extents : List (Extent τ ι)}
    (hsorted : extents.Pairwise fun a b => a.start ≤ b.start)
    (hne : ∀ e ∈ extents, e.start < e.stop) (i : ι) : i ∈ sweep extents ↔ Clash extents i :=
  (Swept.nil.foldl extents hsorted hne).flagged i

end Sunpack.Lib
