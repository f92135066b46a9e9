import Sunpack.Relations.Numeric.Moves

/-!
# Runs of the solver, tracked

`propagate` and `run` have a result: that of the greedy assignment, with the claimed rows at their
numbers in the assignment that came in.
-/

namespace Sunpack.Relations.Numeric

open Lib

variable {n : Nat} {occ : List (Occurrence n)} {required : Fin n → Bool}
  {names : Nat → Option Nat} {g : NumericSolver n} {s : State n}

/-- The claimed rows, put at their numbers. -/
def assign (slots : List (Nat × Fin n)) (claims : List (Occurrence n)) : List (Nat × Fin n) :=
  claims.foldl (fun slots c => insertKey c.number c.row slots) slots

theorem assign_concat (slots : List (Nat × Fin n)) (claims : List (Occurrence n))
    (o : Occurrence n) :
    assign slots (claims ++ [o]) = insertKey o.number o.row (assign slots claims) := by
  rw [assign, assign, List.foldl_append, List.foldl_cons, List.foldl_nil]

/-- Solver and assignment against the state of the greedy assignment. -/
structure Follows (occ : List (Occurrence n)) (required : Fin n → Bool) (names : Nat → Option Nat)
    (init : VolumeAssignment n) (x : NumericSolver n × VolumeAssignment n) (s : State n) :
    Prop where
  tracks : Tracks occ required names ((forcing occ required).lone s) x.1 s
  settled : (forcing occ required).Settled s
  assigned : x.2 = { init with slots := assign init.slots s.claims }

variable {init : VolumeAssignment n} {x : NumericSolver n × VolumeAssignment n}

theorem Follows.pop (h : Follows occ required names init x s) {k m : Nat} {rest rest' : List Nat}
    (hpending : x.1.pending = k :: rest) (hpending' : s.pending = m :: rest') :
    names k = some m ∧
      Follows occ required names init ({ x.1 with pending := rest }, x.2)
        { s with pending := rest' } := by
  have hmap := h.tracks.pending
  rw [hpending, hpending', List.map_cons, List.map_cons] at hmap
  obtain ⟨hk, hrest⟩ := List.cons.inj hmap
  exact ⟨hk, h.tracks.of_same rfl rfl rfl rfl rfl hrest h.tracks.missing,
    h.settled.of_pending rfl rfl rfl, h.assigned⟩

theorem Follows.claim (hocc : occ.Nodup) (h : Follows occ required names init x s) {e : Nat}
    {o : Occurrence n} (ho : occ[e]? = some o) (hlive : o ∈ s.live) :
    ∃ y, x.1.claim e x.2 = some y ∧
      Follows occ required names init y ((forcing occ required).claim s o) := by
  obtain ⟨g', hg', htracks⟩ := h.tracks.claim hocc ho hlive (h.settled.not_taken hlive) x.2
  refine ⟨_, hg', htracks, h.settled.claim (forcing_wf occ required) hlive, ?_⟩
  rw [Forcing.claim_claims, assign_concat, h.assigned]

theorem Tracks.slot_of_name {lone : Occurrence n → Bool}
    (h : Tracks occ required names lone g s) {k m : Nat} (hk : names k = some m) :
    ∃ slot, g.slots[k]? = some slot ∧ slot.number = m ∧ SlotAt occ lone s slot := by
  obtain ⟨slot, hslot, hnumber⟩ := Option.map_eq_some_iff.1 ((h.names_eq k).trans hk)
  exact ⟨slot, hslot, hnumber, h.slot k slot hslot⟩

theorem only_eq_none {α : Type} {l : List α} (h : l.length ≠ 1) : only l = none := by
  cases hl : only l with
  | none => rfl
  | some a =>
    rw [only_eq_some] at hl
    exact absurd (by rw [hl, List.length_singleton]) h

/-! ## Propagation -/

theorem Follows.propagate (hocc : occ.Nodup) (h : Follows occ required names init x s) {t : State n}
    (ht : (forcing occ required).propagate occ.length s = some t) :
    ∃ y, NumericSolver.propagate x.1 x.2 = some y ∧ Follows occ required names init y t := by
  have hfuel : x.1.pending.length + 3 * x.1.edges.length + 1 =
      s.pending.length + 3 * occ.length + 1 := by
    have hlen := congrArg List.length h.tracks.pending
    rw [List.length_map, List.length_map] at hlen
    rw [hlen, h.tracks.edges_length]
  rw [NumericSolver.propagate, hfuel]
  apply loop_rel (fun x s => Follows occ required names init x s)
    (fun y t => Follows occ required names init y t) _ _ (x.1, x.2) s t h ht
  intro x s h
  rw [NumericSolver.propagateBody, Forcing.propagateBody]
  cases hpending : s.pending with
  | nil =>
    have hnil : x.1.pending = [] := by
      have hmap := h.tracks.pending
      rw [hpending, List.map_nil] at hmap
      exact List.map_eq_nil_iff.1 hmap
    rw [hnil]
    exact Or.inr ⟨x, s, rfl, rfl, h⟩
  | cons m rest =>
    cases hpending' : x.1.pending with
    | nil =>
      have hmap := h.tracks.pending
      rw [hpending, hpending'] at hmap
      exact absurd hmap (by simp)
    | cons k rest' =>
      obtain ⟨hk, hpop⟩ := h.pop hpending' hpending
      obtain ⟨slot, hslot, hnumber, hat⟩ := hpop.tracks.slot_of_name hk
      have hsingle := hat.singleFiles_eq required
      rw [hnumber] at hsingle
      simp only [hslot, Option.bind_eq_bind, Option.bind_some]
      by_cases hone : slot.singleFiles = 1
      · have hregistry := hat.registry
        rw [hone, hat.edges] at hregistry
        obtain ⟨o, ho, honly⟩ := Registry.only_occurrence hregistry
        rw [hnumber] at honly
        have hloners : (forcing occ required).loners { s with pending := rest } m = [o] := honly
        have hlive : o ∈ s.live := by
          have hmem : o ∈ (forcing occ required).loners { s with pending := rest } m :=
            hloners ▸ List.mem_singleton_self o
          have hlone := (List.mem_filter.1 hmem).2
          simp only [Forcing.lone, Bool.and_eq_true, decide_eq_true_eq] at hlone
          exact hlone.1.1
        obtain ⟨y, hy, hfollows⟩ := hpop.claim hocc ho hlive
        dsimp only at hy
        rw [if_pos hone, hy, Option.bind_some, hloners, only]
        dsimp only
        rw [← hfollows.tracks.missing]
        split_ifs
        · exact Or.inr ⟨_, _, rfl, rfl, hfollows⟩
        · exact Or.inl ⟨_, _, rfl, rfl, hfollows⟩
      · rw [if_neg hone, only_eq_none (by rw [Forcing.loners, ← hsingle]; exact hone)]
        exact Or.inl ⟨_, _, rfl, rfl, hpop⟩

/-! ## Choosing -/

/-- The edges that were compared, and the best of them. -/
structure BestOf (occ : List (Occurrence n)) (compared : List (Occurrence n))
    (best : Option (Nat × Nat) × Bool) : Prop where
  nothing : best.1 = none → compared = [] ∧ best.2 = false
  found : ∀ e width, best.1 = some (e, width) → ∃ o, occ[e]? = some o ∧ o.width = width ∧
    o ∈ compared ∧ (∀ y ∈ compared, width ≤ y.width) ∧
    (best.2 = false → (compared.filter (·.width = width)) = [o]) ∧
    (best.2 = true → 2 ≤ (compared.filter (·.width = width)).length)

theorem BestOf.compareEdge {lone : Occurrence n → Bool} {compared : List (Occurrence n)}
    {best : Option (Nat × Nat) × Bool} (hbest : BestOf occ compared best)
    (h : Tracks occ required names lone g s) {e : Nat} {o : Occurrence n} (ho : occ[e]? = some o) :
    ∃ best', g.compareEdge best e = some best' ∧
      BestOf occ (compared ++ if isLive s o then [o] else []) best' := by
  obtain ⟨edge, hedge, hat⟩ := h.edge e o ho
  simp only [NumericSolver.compareEdge, hedge, Option.bind_eq_bind, Option.bind_some, hat.live,
    hat.width]
  by_cases hlive : isLive s o = true
  · rw [if_pos hlive, if_pos hlive]
    obtain ⟨first, tied⟩ := best
    cases first with
    | none =>
      obtain ⟨rfl, _⟩ := hbest.nothing rfl
      refine ⟨_, rfl, fun hcontra => absurd hcontra (by simp), fun e' width' heq => ?_⟩
      obtain ⟨rfl, rfl⟩ := Prod.mk.inj (Option.some.inj heq)
      exact ⟨o, ho, rfl, by simp, by simp, by simp, by simp⟩
    | some old =>
      obtain ⟨old, width⟩ := old
      obtain ⟨p, hp, hpw, hmem, hmin, hfree, htied⟩ := hbest.found old width rfl
      dsimp only
      by_cases hlt : width < o.width
      · rw [if_pos hlt]
        refine ⟨_, rfl, fun hcontra => absurd hcontra (by simp), fun e' width' heq => ?_⟩
        obtain ⟨rfl, rfl⟩ := Prod.mk.inj (Option.some.inj heq)
        have hfilter : (compared ++ [o]).filter (·.width = width) =
            compared.filter (·.width = width) := by
          rw [List.filter_append, List.filter_singleton]
          simp [Nat.ne_of_gt hlt]
        rw [hfilter]
        refine ⟨p, hp, hpw, List.mem_append_left _ hmem, fun y hy => ?_, hfree, htied⟩
        rcases List.mem_append.1 hy with hy | hy
        · exact hmin y hy
        · rw [List.mem_singleton.1 hy]
          exact Nat.le_of_lt hlt
      · rw [if_neg hlt]
        by_cases heq : width = o.width
        · rw [if_pos heq]
          refine ⟨_, rfl, fun hcontra => absurd hcontra (by simp), fun e' width' heq' => ?_⟩
          obtain ⟨rfl, rfl⟩ := Prod.mk.inj (Option.some.inj heq')
          refine ⟨p, hp, hpw, List.mem_append_left _ hmem, fun y hy => ?_,
            fun hcontra => absurd hcontra (by simp), fun _ => ?_⟩
          · rcases List.mem_append.1 hy with hy | hy
            · exact hmin y hy
            · rw [List.mem_singleton.1 hy, heq]
          · have hpos : 0 < (compared.filter (·.width = width)).length :=
              List.length_pos_of_mem (List.mem_filter.2 ⟨hmem, by simpa using hpw⟩)
            rw [List.filter_append, List.length_append, List.filter_singleton]
            simp only [← heq, decide_true, cond_true, List.length_singleton]
            omega
        · rw [if_neg heq]
          have hgt : o.width < width := by omega
          refine ⟨_, rfl, fun hcontra => absurd hcontra (by simp), fun e' width' heq' => ?_⟩
          obtain ⟨rfl, rfl⟩ := Prod.mk.inj (Option.some.inj heq')
          refine ⟨o, ho, rfl, by simp, fun y hy => ?_, fun _ => ?_,
            fun hcontra => absurd hcontra (by simp)⟩
          · rcases List.mem_append.1 hy with hy | hy
            · exact Nat.le_of_lt (Nat.lt_of_lt_of_le hgt (hmin y hy))
            · rw [List.mem_singleton.1 hy]
          · have hnone : compared.filter (·.width = o.width) = [] := by
              rw [List.filter_eq_nil_iff]
              intro y hy hw
              have := hmin y hy
              have := of_decide_eq_true hw
              omega
            rw [List.filter_append, hnone, List.filter_singleton]
            simp
  · rw [if_neg hlive, if_neg hlive, List.append_nil]
    exact ⟨best, rfl, hbest⟩

theorem BestOf.start : BestOf occ [] (none, false) where
  nothing _ := ⟨rfl, rfl⟩
  found e width h := absurd h (by simp)

theorem BestOf.foldlM {lone : Occurrence n → Bool} {compared : List (Occurrence n)}
    {best : Option (Nat × Nat) × Bool} (hbest : BestOf occ compared best)
    (h : Tracks occ required names lone g s) (l : List Nat) (os : List (Occurrence n))
    (hl : l.map (occ[·]?) = os.map some) :
    ∃ best', l.foldlM g.compareEdge best = some best' ∧
      BestOf occ (compared ++ os.filter (isLive s)) best' := by
  induction l generalizing os compared best with
  | nil =>
    obtain rfl := List.map_eq_nil_iff.1 hl.symm
    rw [List.filter_nil, List.append_nil]
    exact ⟨best, rfl, hbest⟩
  | cons e l ih =>
    cases os with
    | nil => exact absurd hl (by simp)
    | cons o os =>
      obtain ⟨ho, hl⟩ := List.cons.inj hl
      obtain ⟨best₁, hstep, hbest₁⟩ := hbest.compareEdge h ho
      obtain ⟨best₂, hrest, hbest₂⟩ := ih hbest₁ os hl
      refine ⟨best₂, ?_, ?_⟩
      · rw [List.foldlM_cons, hstep, Option.bind_eq_bind, Option.bind_some, hrest]
      · have hsplit : (o :: os).filter (isLive s) =
            (if isLive s o then [o] else []) ++ os.filter (isLive s) := by
          cases hlive : isLive s o with
          | true => rw [List.filter_cons_of_pos hlive, if_pos rfl, List.singleton_append]
          | false => rw [List.filter_cons_of_neg (by simp [hlive]), if_neg (by simp), List.nil_append]
        rw [hsplit, ← List.append_assoc]
        exact hbest₂

/-- The edges of the least width. -/
theorem narrowest_eq {m : Nat} {o : Occurrence n} (hmem : o ∈ (forcing occ required).wanted s m)
    (hmin : ∀ y ∈ (forcing occ required).wanted s m, o.width ≤ y.width) :
    (forcing occ required).narrowest s m =
      ((forcing occ required).wanted s m).filter (·.width = o.width) := by
  apply List.filter_congr
  intro y hy
  rw [Bool.eq_iff_iff, List.all_eq_true, decide_eq_true_eq]
  constructor
  · intro hall
    exact Nat.le_antisymm (of_decide_eq_true (hall o hmem)) (hmin y hy)
  · intro heq z hz
    rw [decide_eq_true_eq]
    exact heq.trans_le (hmin z hz)

/-! ## Runs -/

theorem Tracks.skipIdle {lone : Occurrence n → Bool} (h : Tracks occ required names lone g s)
    {order numbers : List Nat} (horder : order.map names = numbers.map some) :
    ∃ rest, g.skipIdle order = some rest ∧ rest.map names =
      (numbers.dropWhile fun m => ((forcing occ required).wanted s m).isEmpty).map some := by
  induction order generalizing numbers with
  | nil =>
    obtain rfl := List.map_eq_nil_iff.1 horder.symm
    exact ⟨[], rfl, rfl⟩
  | cons k order ih =>
    cases numbers with
    | nil => exact absurd horder (by simp)
    | cons m numbers =>
      obtain ⟨hk, hrest⟩ := List.cons.inj horder
      obtain ⟨slot, hslot, hnumber, hat⟩ := h.slot_of_name hk
      have hdegree := hat.degree_eq required
      rw [hnumber] at hdegree
      simp only [NumericSolver.skipIdle, hslot, Option.bind_eq_bind, Option.bind_some]
      by_cases hzero : slot.degree = 0
      · have hempty : ((forcing occ required).wanted s m).isEmpty = true := by
          rw [List.isEmpty_iff, ← List.length_eq_zero_iff, ← hdegree, hzero]
        rw [if_pos hzero, List.dropWhile_cons_of_pos
          (p := fun m => ((forcing occ required).wanted s m).isEmpty) hempty]
        exact ih hrest
      · have hsome : ¬ ((forcing occ required).wanted s m).isEmpty = true := by
          rw [List.isEmpty_iff, ← List.length_eq_zero_iff, ← hdegree]
          exact hzero
        rw [if_neg hzero, List.dropWhile_cons_of_neg
          (p := fun m => ((forcing occ required).wanted s m).isEmpty) hsome]
        exact ⟨_, rfl, horder⟩

/-- The result of the solver for a result of the greedy assignment. -/
def outcome (init : VolumeAssignment n) :
    Except Forcing.Failure (List (Occurrence n)) →
      Except RelationFailureReason (VolumeAssignment n)
  | .ok claims => .ok { init with
      slots := assign init.slots claims
      unresolved := [] }
  | .error .missing => .error .missingVolume
  | .error .ambiguous => .error .ambiguousVolumeMapping

theorem Follows.run (hocc : occ.Nodup) (h : Follows occ required names init x s)
    (hcard : s.live.card ≤ occ.length) {numbers : List Nat}
    (horder : x.1.order.map names = numbers.map some)
    {result : Except Forcing.Failure (List (Occurrence n))}
    (hrun : (forcing occ required).run occ.length s numbers = some result) :
    x.1.run x.2 = some (outcome init result) := by
  rw [Forcing.run] at hrun
  rw [NumericSolver.run, h.tracks.missing]
  by_cases hmissing : s.missing = true
  · rw [if_pos hmissing] at hrun ⊢
    obtain rfl := Option.some.inj hrun
    rfl
  · rw [if_neg hmissing] at hrun ⊢
    rw [h.tracks.edges_length]
    obtain ⟨r, hr, rfl⟩ : Gives (fun r => r = outcome init result)
        (loop NumericSolver.runBody (occ.length + 1) ((x.1, x.2), x.1.order)) := by
      apply loop_rel (fun (x : (NumericSolver n × VolumeAssignment n) × List Nat)
          (t : State n × List Nat) => Follows occ required names init x.1 t.1 ∧
            t.1.live.card ≤ occ.length ∧ x.2.map names = t.2.map some)
        (fun r r' => r = outcome init r') _ _ _ (s, numbers) result ⟨h, hcard, horder⟩ hrun
      rintro ⟨x, order⟩ ⟨s, numbers⟩ ⟨h, hcard, horder⟩
      dsimp only at h hcard horder
      obtain ⟨t, ht, _, hsub⟩ :=
        Forcing.propagate_gives (forcing_wf occ required) h.settled hcard
      obtain ⟨y, hy, hfollows⟩ := h.propagate hocc ht
      rw [NumericSolver.runBody, Forcing.runBody]
      simp only [ht, hy, Option.bind_eq_bind, Option.bind_some, hfollows.tracks.missing]
      by_cases hmissing : t.missing = true
      · rw [if_pos hmissing, if_pos hmissing]
        exact Or.inr ⟨_, _, rfl, rfl, rfl⟩
      · rw [if_neg hmissing, if_neg hmissing]
        obtain ⟨rest, hrest, hnames⟩ := hfollows.tracks.skipIdle horder
        rw [hrest, Option.bind_some]
        cases hdrop : numbers.dropWhile fun m => ((forcing occ required).wanted t m).isEmpty with
        | nil =>
          rw [hdrop] at hnames
          obtain rfl := List.map_eq_nil_iff.1 hnames
          refine Or.inr ⟨_, _, rfl, rfl, ?_⟩
          rw [outcome, hfollows.assigned]
        | cons m numbers' =>
          rw [hdrop] at hnames
          cases rest with
          | nil => exact absurd hnames (by simp)
          | cons k rest' =>
            obtain ⟨hk, _⟩ := List.cons.inj hnames
            obtain ⟨slot, hslot, hnumber, hat⟩ := hfollows.tracks.slot_of_name hk
            have hedges : slot.edges.map (occ[·]?) =
                ((forcing occ required).ofNumber m).map some := by
              rw [hat.edges, indexes_map, hnumber]
              rfl
            obtain ⟨best, hbest, hbestOf⟩ := BestOf.start.foldlM hfollows.tracks _ _ hedges
            have hwanted : [] ++ ((forcing occ required).ofNumber m).filter (isLive t) =
                (forcing occ required).wanted t m := rfl
            rw [hwanted] at hbestOf
            have hnonempty : (forcing occ required).wanted t m ≠ [] := by
              intro hnil
              have hhead := List.head?_dropWhile_not
                (fun m => ((forcing occ required).wanted t m).isEmpty) numbers
              rw [hdrop] at hhead
              simp [hnil] at hhead
            dsimp only
            rw [hslot, Option.bind_some, hbest, Option.bind_some]
            cases hfirst : best.1 with
            | none => exact absurd (hbestOf.nothing hfirst).1 hnonempty
            | some found =>
              obtain ⟨e, width⟩ := found
              obtain ⟨o, ho, rfl, hmem, hmin, hfree, htied⟩ := hbestOf.found e width hfirst
              have hnarrow := narrowest_eq hmem hmin
              cases htie : best.2 with
              | true =>
                rw [if_pos rfl, only_eq_none (by rw [hnarrow]; have := htied htie; omega)]
                exact Or.inr ⟨_, _, rfl, rfl, rfl⟩
              | false =>
                have hlive : o ∈ t.live :=
                  ((Forcing.mem_wanted (forcing_wf occ required)).1 hmem).2.2
                obtain ⟨z, hz, hnext⟩ := hfollows.claim hocc ho hlive
                rw [if_neg (by simp), Option.bind_some, hz, Option.bind_some, hnarrow, hfree htie,
                  only]
                refine Or.inl ⟨_, _, rfl, rfl, hnext, ?_, hnames⟩
                exact Nat.le_trans (Nat.le_of_lt (Forcing.claim_card hfollows.settled hlive))
                  (Nat.le_trans (Finset.card_le_card hsub) hcard)
    exact hr

end Sunpack.Relations.Numeric
