import Mathlib.Order.Basic
import Mathlib.Data.Int.Order.Basic

/-!
# Numbered episodes whose events arrive in any order

Something blocks and resumes, again and again, and every event carries the number of its episode. A
receiver keeps the newest number, whether that episode was resumed, and whether it waits. What it
keeps is right when it depends only on the events of the newest episode.
-/

namespace Sunpack.Lib

inductive EpisodeKind
  | blocked
  | status
  | resumed
deriving DecidableEq, Repr

abbrev EpisodeEvent := Int × EpisodeKind

/-- A receiver that has seen some events. -/
structure Tracks (seen : List EpisodeEvent) (latest : Int) (resumed waiting : Bool) : Prop where
  nonneg : 0 ≤ latest
  bound : ∀ e ∈ seen, e.1 ≤ latest
  attained : latest = 0 ∨ ∃ e ∈ seen, e.1 = latest
  resumed_iff : resumed = true ↔ (latest, .resumed) ∈ seen
  waits : (latest, .blocked) ∈ seen → resumed = false → waiting = true
  rests : resumed = true → waiting = false
  cause : waiting = true → ∃ e ∈ seen, e.2 = .blocked

namespace Tracks

variable {seen : List EpisodeEvent} {latest : Int} {resumed waiting : Bool} {e : EpisodeEvent}

theorem init : Tracks [] 0 false false where
  nonneg := le_rfl
  bound _ h := absurd h List.not_mem_nil
  attained := .inl rfl
  resumed_iff := by simp
  waits h := absurd h List.not_mem_nil
  rests h := absurd h (by simp)
  cause h := absurd h (by simp)

/-- An event of an older episode, or one of an episode that is over, changes nothing. -/
theorem stale (h : Tracks seen latest resumed waiting)
    (he : e.1 < latest ∨ e.1 = latest ∧ resumed = true) :
    Tracks (seen ++ [e]) latest resumed waiting where
  nonneg := h.nonneg
  bound x hx := by
    rcases List.mem_append.1 hx with hx | hx
    · exact h.bound x hx
    · rw [List.mem_singleton.1 hx]
      exact he.elim le_of_lt fun he => he.1.le
  attained := h.attained.imp_right fun ⟨x, hx, heq⟩ => ⟨x, List.mem_append_left _ hx, heq⟩
  resumed_iff := by
    rw [h.resumed_iff, List.mem_append, List.mem_singleton]
    refine ⟨.inl, fun hor => hor.elim id fun heq => ?_⟩
    rcases he with hlt | ⟨-, hres⟩
    · rw [← heq] at hlt
      exact absurd hlt (lt_irrefl _)
    · exact h.resumed_iff.1 hres
  waits hmem hres := by
    rcases List.mem_append.1 hmem with hmem | hmem
    · exact h.waits hmem hres
    · rw [List.mem_singleton] at hmem
      rcases he with hlt | ⟨-, hres'⟩
      · rw [← hmem] at hlt
        exact absurd hlt (lt_irrefl _)
      · rw [hres] at hres'
        exact absurd hres' (by simp)
  rests := h.rests
  cause hwaiting := (h.cause hwaiting).imp fun _ hx => ⟨List.mem_append_left _ hx.1, hx.2⟩

/-- A newer event starts its episode; nothing is known of that episode before. -/
theorem newer (h : Tracks seen latest resumed waiting) (he : latest < e.1) {resumed' waiting' : Bool}
    (hresumed : resumed' = true ↔ e.2 = .resumed)
    (hwaits : e.2 = .blocked → waiting' = true) (hrests : e.2 = .resumed → waiting' = false)
    (hcause : waiting' = true → waiting = true ∨ e.2 = .blocked) :
    Tracks (seen ++ [e]) e.1 resumed' waiting' where
  nonneg := h.nonneg.trans he.le
  bound x hx := by
    rcases List.mem_append.1 hx with hx | hx
    · exact (h.bound x hx).trans he.le
    · rw [List.mem_singleton.1 hx]
  attained := .inr ⟨e, List.mem_append_right _ List.mem_cons_self, rfl⟩
  resumed_iff := by
    rw [hresumed, List.mem_append, List.mem_singleton]
    constructor
    · intro hkind
      exact .inr (Prod.ext rfl hkind.symm)
    · rintro (hmem | heq)
      · exact absurd (h.bound _ hmem) (not_le.2 he)
      · exact (congrArg Prod.snd heq).symm
  waits hmem hres := by
    rcases List.mem_append.1 hmem with hmem | hmem
    · exact absurd (h.bound _ hmem) (not_le.2 he)
    · exact hwaits (congrArg Prod.snd (List.mem_singleton.1 hmem)).symm
  rests hres := hrests (hresumed.1 hres)
  cause hwaiting := (hcause hwaiting).elim
    (fun hold => (h.cause hold).imp fun _ hx => ⟨List.mem_append_left _ hx.1, hx.2⟩)
    fun hkind => ⟨e, List.mem_append_right _ List.mem_cons_self, hkind⟩

/-- An event of the newest episode while that is not resumed. -/
theorem current (h : Tracks seen latest resumed waiting) (he : e.1 = latest)
    (hnot : resumed = false) {resumed' waiting' : Bool}
    (hresumed : resumed' = true ↔ e.2 = .resumed)
    (hwaits : e.2 ≠ .resumed → waiting = true ∨ e.2 = .blocked → waiting' = true)
    (hrests : e.2 = .resumed → waiting' = false)
    (hcause : waiting' = true → waiting = true ∨ e.2 = .blocked) :
    Tracks (seen ++ [e]) latest resumed' waiting' where
  nonneg := h.nonneg
  bound x hx := by
    rcases List.mem_append.1 hx with hx | hx
    · exact h.bound x hx
    · rw [List.mem_singleton.1 hx, he]
  attained := .inr ⟨e, List.mem_append_right _ List.mem_cons_self, he⟩
  resumed_iff := by
    rw [hresumed, List.mem_append, List.mem_singleton]
    constructor
    · intro hkind
      exact .inr (Prod.ext he.symm hkind.symm)
    · rintro (hmem | heq)
      · rw [h.resumed_iff.2 hmem] at hnot
        exact absurd hnot (by simp)
      · exact (congrArg Prod.snd heq).symm
  waits hmem hres := by
    have hkind : e.2 ≠ .resumed := by
      rw [ne_eq, ← hresumed, hres]
      simp
    rcases List.mem_append.1 hmem with hmem | hmem
    · exact hwaits hkind (.inl (h.waits hmem hnot))
    · exact hwaits hkind (.inr (congrArg Prod.snd (List.mem_singleton.1 hmem)).symm)
  rests hres := hrests (hresumed.1 hres)
  cause hwaiting := (hcause hwaiting).elim
    (fun hold => (h.cause hold).imp fun _ hx => ⟨List.mem_append_left _ hx.1, hx.2⟩)
    fun hkind => ⟨e, List.mem_append_right _ List.mem_cons_self, hkind⟩

/-- For positive numbers, an event is older than the newest episode when a newer one was seen. -/
theorem older_iff (h : Tracks seen latest resumed waiting) (he : 0 < e.1) :
    e.1 < latest ↔ ∃ x ∈ seen, e.1 < x.1 := by
  constructor
  · intro hlt
    rcases h.attained with hzero | ⟨x, hx, rfl⟩
    · omega
    · exact ⟨x, hx, hlt⟩
  · rintro ⟨x, hx, hlt⟩
    exact hlt.trans_le (h.bound x hx)

/-- An event is of no use when a newer episode was seen or its own was resumed. -/
theorem over_iff (h : Tracks seen latest resumed waiting) (he : 0 < e.1) :
    (e.1 < latest ∨ e.1 = latest ∧ resumed = true) ↔
      (∃ x ∈ seen, e.1 < x.1) ∨ (e.1, .resumed) ∈ seen := by
  rw [h.older_iff he]
  constructor
  · rintro (hold | ⟨heq, hres⟩)
    · exact .inl hold
    · exact .inr (heq ▸ h.resumed_iff.1 hres)
  · rintro (hold | hres)
    · exact .inl hold
    · rcases (h.bound _ hres).lt_or_eq with hlt | heq
      · exact .inl ((h.older_iff he).1 hlt)
      · dsimp only at heq
        exact .inr ⟨heq, h.resumed_iff.2 (heq ▸ hres)⟩

end Tracks

/-- The events of episodes `1, …, n`: every one blocks, and every one before the last resumes. -/
structure Episodes (n : Int) (events : List EpisodeEvent) : Prop where
  nonneg : 0 ≤ n
  range : ∀ e ∈ events, 1 ≤ e.1 ∧ e.1 ≤ n
  blocked : ∀ k, 1 ≤ k → k ≤ n → (k, .blocked) ∈ events
  resumed : ∀ k, 1 ≤ k → k < n → (k, .resumed) ∈ events

/-- A receiver that has seen all events, in any order, knows the last episode. -/
theorem Tracks.final {seen : List EpisodeEvent} {latest n : Int} {resumed waiting : Bool}
    (h : Tracks seen latest resumed waiting) (hn : Episodes n seen) :
    latest = n ∧ (waiting = true ↔ 1 ≤ n ∧ (n, .resumed) ∉ seen) := by
  by_cases hzero : n = 0
  · have hseen : seen = [] := by
      rw [List.eq_nil_iff_forall_not_mem]
      intro e he
      have := hn.range e he
      omega
    have hlatest : latest = n := by
      rcases h.attained with hlatest | ⟨e, he, -⟩
      · omega
      · rw [hseen] at he
        exact absurd he List.not_mem_nil
    refine ⟨hlatest, ⟨fun hwaiting => ?_, fun hone => by omega⟩⟩
    obtain ⟨e, he, -⟩ := h.cause hwaiting
    rw [hseen] at he
    exact absurd he List.not_mem_nil
  · have hone : 1 ≤ n := by
      have := hn.nonneg
      omega
    have hblocked := hn.blocked n hone le_rfl
    have hlatest : latest = n := by
      refine le_antisymm ?_ (h.bound _ hblocked)
      rcases h.attained with hlatest | ⟨e, he, rfl⟩
      · omega
      · exact (hn.range e he).2
    subst hlatest
    refine ⟨rfl, ⟨fun hwaiting => ⟨hone, fun hmem => ?_⟩, fun hnot => ?_⟩⟩
    · rw [h.rests (h.resumed_iff.2 hmem)] at hwaiting
      exact absurd hwaiting (by simp)
    · refine h.waits hblocked (Bool.eq_false_iff.2 fun hres => ?_)
      exact hnot.2 (h.resumed_iff.1 hres)

end Sunpack.Lib
