import Sunpack.Relations.Numeric.Solve

/-!
# The order of the files

A claim removes the edges of a slot in the order of the files, and a removal that leaves a file with
one edge puts the slot of that edge on the work list. So the order of three files that share a number
can decide which of two slots is forced first. Where at most two files share it, it cannot.
-/

namespace Sunpack.Relations.Numeric

open Lib

variable {n : Nat} {domains domains' : List (NumericDomain n)}

/-- The domains that have a number. -/
def listing (domains : List (NumericDomain n)) (m : Nat) : List (NumericDomain n) :=
  domains.filter fun d => d.numbers.any fun p => p.1 = m

theorem number_mem_of_mem_occurrencesFrom {row : Fin n} {index : Nat} {numbers : List (Nat × Nat)}
    {o : Occurrence n} (h : o ∈ occurrencesFrom row index numbers) :
    ∃ p ∈ numbers, p.1 = o.number := by
  obtain ⟨q, hq, rfl⟩ := List.mem_map.1 h
  exact ⟨q.1, List.fst_mem_of_mem_zipIdx hq, rfl⟩

/-- The edges of a number come from the domains that have it. -/
theorem filter_number (domains : List (NumericDomain n)) (m : Nat) :
    (occurrences domains).filter (·.number = m) =
      (occurrences (listing domains m)).filter (·.number = m) := by
  induction domains with
  | nil => rfl
  | cons d domains ih =>
    have hcons (d : NumericDomain n) (l : List (NumericDomain n)) :
        occurrences (d :: l) = occurrencesFrom d.row 0 d.numbers ++ occurrences l := by
      rw [occurrences, occurrences, List.flatMap_cons]
    rw [listing, List.filter_cons, hcons, List.filter_append, ih]
    split_ifs with hlist
    · rw [hcons, List.filter_append]
      rfl
    · have hnone : (occurrencesFrom d.row 0 d.numbers).filter (·.number = m) = [] := by
        rw [List.filter_eq_nil_iff]
        intro o ho heq
        obtain ⟨p, hp, hnumber⟩ := number_mem_of_mem_occurrencesFrom ho
        apply hlist
        exact List.any_eq_true.2 ⟨p, hp, by simpa [hnumber] using heq⟩
      rw [hnone, List.nil_append]
      rfl

theorem filter_row_perm (hperm : domains.Perm domains')
    (hrows : (domains.map NumericDomain.row).Nodup) (r : Fin n) :
    (occurrences domains').filter (·.row = r) = (occurrences domains).filter (·.row = r) := by
  have hrows' : (domains'.map NumericDomain.row).Nodup := (hperm.map _).nodup_iff.1 hrows
  by_cases hr : ∃ d ∈ domains, d.row = r
  · obtain ⟨d, hd, rfl⟩ := hr
    rw [filter_occurrences_row hrows hd, filter_occurrences_row hrows' (hperm.mem_iff.1 hd)]
  · have hempty (l : List (NumericDomain n)) (hl : ∀ d ∈ l, d.row ≠ r) :
        (occurrences l).filter (·.row = r) = [] := by
      rw [List.filter_eq_nil_iff]
      intro o ho heq
      obtain ⟨d, hd, hmem⟩ := mem_occurrences.1 ho
      exact hl d hd ((row_of_mem_occurrencesFrom hmem).symm.trans (of_decide_eq_true heq))
    rw [hempty domains fun d hd heq => hr ⟨d, hd, heq⟩,
      hempty domains' fun d hd heq => hr ⟨d, hperm.mem_iff.2 hd, heq⟩]

theorem requires_perm (hperm : domains.Perm domains') : requires domains' = requires domains := by
  funext r
  exact hperm.symm.any_eq

/-- The greedy assignment of the files in another order. -/
theorem forcingOf_perm (hperm : domains.Perm domains')
    (hrows : (domains.map NumericDomain.row).Nodup) :
    forcingOf domains' =
      { forcingOf domains with
        ofNumber := fun m => (occurrences domains').filter (·.number = m) } := by
  have hofRow : (fun r => (occurrences domains').filter (·.row = r)) =
      fun r => (occurrences domains).filter (·.row = r) :=
    funext fun r => filter_row_perm hperm hrows r
  rw [forcingOf, forcingOf, forcing, forcing, requires_perm hperm, hofRow]

theorem occurrences_perm (hperm : domains.Perm domains') :
    (occurrences domains').Perm (occurrences domains) := hperm.symm.flatMap_right _

/-- The order of the files matters for numbers of three files or more only. -/
theorem reordered_of_perm (hperm : domains.Perm domains')
    (hrows : (domains.map NumericDomain.row).Nodup)
    (hkept : ∀ m, listing domains' m = listing domains m ∨ (listing domains m).length ≤ 2) :
    (forcingOf domains).Reordered fun m => (occurrences domains').filter (·.number = m) where
  perm m := (occurrences_perm hperm).filter _
  rows m r := by
    have hrow := filter_row_perm hperm hrows r
    have hswap (l : List (Occurrence n)) : (l.filter (·.number = m)).filter (·.row = r) =
        (l.filter (·.row = r)).filter (·.number = m) := by
      rw [List.filter_filter, List.filter_filter]
      exact List.filter_congr fun o _ => Bool.and_comm _ _
    have hgoal : ((occurrences domains').filter (·.number = m)).filter (·.row = r) =
        ((occurrences domains).filter (·.number = m)).filter (·.row = r) := by
      rw [hswap, hswap, hrow]
    exact hgoal
  few m := by
    have hsame (heq : listing domains' m = listing domains m) :
        (occurrences domains').filter (·.number = m) =
          (occurrences domains).filter (·.number = m) := by
      rw [filter_number domains', filter_number domains, heq]
    have hrow {o : Occurrence n} (ho : o ∈ (forcingOf domains).ofNumber m) :
        ∃ d ∈ listing domains m, (forcingOf domains).row o = d.row := by
      have ho' : o ∈ (occurrences domains).filter (·.number = m) := ho
      rw [filter_number] at ho'
      obtain ⟨d, hd, hmem⟩ := mem_occurrences.1 (List.mem_filter.1 ho').1
      exact ⟨d, hd, row_of_mem_occurrencesFrom hmem⟩
    have hlisting : (listing domains' m).Perm (listing domains m) := hperm.symm.filter _
    rcases hkept m with heq | htwo
    · exact Or.inl (hsame heq)
    · cases hl : listing domains m with
      | nil =>
        rw [hl] at hlisting
        exact Or.inl (hsame (hlisting.eq_nil.trans hl.symm))
      | cons d₁ l =>
        rw [hl] at hrow htwo
        cases l with
        | nil =>
          refine Or.inr ⟨d₁.row, d₁.row, fun o ho => ?_⟩
          obtain ⟨d, hd, heq⟩ := hrow ho
          rw [List.mem_singleton.1 hd] at heq
          exact Or.inl heq
        | cons d₂ l =>
          obtain rfl : l = [] := by
            rw [← List.length_eq_zero_iff]
            rw [List.length_cons, List.length_cons] at htwo
            omega
          refine Or.inr ⟨d₁.row, d₂.row, fun o ho => ?_⟩
          obtain ⟨d, hd, heq⟩ := hrow ho
          rcases List.mem_cons.1 hd with rfl | hd
          · exact Or.inl heq
          · rw [List.mem_singleton.1 hd] at heq
            exact Or.inr heq

theorem numbersOf_perm (hperm : domains.Perm domains') : numbersOf domains' = numbersOf domains := by
  rw [numbersOf, numbersOf, List.toFinset_eq_of_perm _ _ ((occurrences_perm hperm).map _)]

theorem start_perm (hperm : domains.Perm domains')
    (hrows : (domains.map NumericDomain.row).Nodup) : start domains' = start domains := by
  have hopening : opening domains' = opening domains := by
    rw [opening, opening, List.toFinset_eq_of_perm _ _ (occurrences_perm hperm),
      hperm.symm.any_eq]
  have hloners (m : Nat) : ((forcingOf domains').loners (opening domains) m).length =
      ((forcingOf domains).loners (opening domains) m).length := by
    rw [forcingOf_perm hperm hrows]
    exact (((occurrences_perm hperm).filter _).filter _).length_eq
  rw [start, start, hopening, numbersOf_perm hperm]
  simp only [hloners]

/-- The result is the same for the files in another order, if two files that share a number with a
third one keep their order. -/
theorem solve_perm (assignment : VolumeAssignment n) (domains domains' : List (NumericDomain n))
    (hrows : (domains.map NumericDomain.row).Nodup) (hperm : domains.Perm domains')
    (hkept : ∀ m, listing domains' m = listing domains m ∨ (listing domains m).length ≤ 2) :
    solve assignment domains' = solve assignment domains := by
  have hrows' : (domains'.map NumericDomain.row).Nodup := (hperm.map _).nodup_iff.1 hrows
  obtain ⟨result, hresult, _⟩ := Forcing.run_gives (forcing_wf _ _)
    start_settled start_card (start_numbers domains)
  have hsame : (forcingOf domains').run (occurrences domains').length (start domains')
      (numbersOf domains') = some result := by
    rw [forcingOf_perm hperm hrows, start_perm hperm hrows, numbersOf_perm hperm,
      (occurrences_perm hperm).length_eq,
      (reordered_of_perm hperm hrows hkept).run (forcing_wf _ _) start_settled start_card
        (start_numbers domains)]
    exact hresult
  rw [solve_eq hrows assignment hresult, solve_eq hrows' assignment hsame]

/-- Two files change places. -/
theorem solve_perm_two :
    solve { slots := [], companions := [], unresolved := [] }
        [⟨1, false, [(1, 1), (2, 2)]⟩, ⟨0, false, [(1, 1)]⟩] =
      solve (n := 2) { slots := [], companions := [], unresolved := [] }
        [⟨0, false, [(1, 1)]⟩, ⟨1, false, [(1, 1), (2, 2)]⟩] :=
  solve_perm _ [⟨0, false, [(1, 1)]⟩, ⟨1, false, [(1, 1), (2, 2)]⟩] _ (by decide)
    (List.Perm.swap _ _ _) fun _ => Or.inr (List.length_filter_le _ _)

/-- Files 1 and 2 lose slot 1 to file 0 in the order in which they are listed. The first of them is
then forced to its other slot, and file 3 to that of the second. -/
theorem solve_order_matters :
    let assignment : VolumeAssignment 4 := { slots := [], companions := [], unresolved := [] }
    let z : NumericDomain 4 := ⟨0, false, [(1, 1)]⟩
    let a : NumericDomain 4 := ⟨1, false, [(1, 1), (2, 2)]⟩
    let b : NumericDomain 4 := ⟨2, false, [(1, 1), (3, 2)]⟩
    let c : NumericDomain 4 := ⟨3, false, [(2, 1), (3, 1)]⟩
    ([z, a, b, c].map NumericDomain.row).Nodup ∧ [z, a, b, c].Perm [z, b, a, c] ∧
      solve assignment [z, a, b, c] =
        some (.ok { assignment with slots := [(1, 0), (2, 1), (3, 3)] }) ∧
      solve assignment [z, b, a, c] =
        some (.ok { assignment with slots := [(1, 0), (2, 3), (3, 2)] }) ∧
      solve assignment [z, a, b, c] ≠ solve assignment [z, b, a, c] := by
  have hslots {x y : VolumeAssignment 4} (h : x.slots ≠ y.slots) :
      (some (Except.ok x) : Option (Except RelationFailureReason (VolumeAssignment 4))) ≠
        some (Except.ok y) := fun heq => h (congrArg _ (Except.ok.inj (Option.some.inj heq)))
  refine ⟨by decide, (List.Perm.swap _ _ _).cons _, rfl, rfl, hslots (by decide)⟩

end Sunpack.Relations.Numeric
