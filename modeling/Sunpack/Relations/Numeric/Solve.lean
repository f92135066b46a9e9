import Sunpack.Relations.Numeric.Runs
import Sunpack.Relations.Numeric.Start

/-!
# What the solver has solved

`solve` has a result for domains of distinct rows. A mapping is an extension of the assignment that
came in, by numbers of the domains, each row once, with every required row; and on the way the
registers of all files and slots are right.
-/

namespace Sunpack.Relations.Numeric

open Lib

variable {n : Nat} {domains : List (NumericDomain n)}

/-! ## From the first state -/

/-- The greedy assignment for some domains. -/
abbrev forcingOf (domains : List (NumericDomain n)) : Forcing (Occurrence n) (Fin n) Nat :=
  forcing (occurrences domains) (requires domains)

theorem mem_ofRow {occ : List (Occurrence n)} {required : Fin n → Bool} {o : Occurrence n} :
    o ∈ (forcing occ required).ofRow ((forcing occ required).row o) ↔ o ∈ occ := by
  simp [forcing]

/-- Each number of a domain occurs. -/
theorem exists_occurrence {d : NumericDomain n} {p : Nat × Nat}
    (hp : p ∈ d.numbers) : ∃ o ∈ occurrencesFrom d.row 0 d.numbers, o.number = p.1 := by
  obtain ⟨i, hi, rfl⟩ := List.mem_iff_getElem.1 hp
  refine ⟨⟨d.row, i, d.numbers[i].1, d.numbers[i].2⟩, ?_, rfl⟩
  refine List.mem_map.2 ⟨(d.numbers[i], i), ?_, rfl⟩
  rw [List.mem_zipIdx_iff_getElem?]
  exact List.getElem?_eq_getElem hi

theorem start_settled : (forcingOf domains).Settled (start domains) where
  edge o ho := mem_ofRow.2 (by simpa [start, opening] using ho)
  claimed c hc := absurd hc (by simp [start, opening])
  distinct := List.Pairwise.nil
  open_iff o ho := by
    have hocc := mem_ofRow.1 ho
    simp [start, opening, hocc]
  covered := by
    intro hmissing r hr
    obtain ⟨d, hd, hrow⟩ := List.any_eq_true.1 hr
    rw [Bool.and_eq_true, decide_eq_true_eq] at hrow
    have hsome : ¬ (d.numbers.length == 0 && d.required) = true :=
      List.any_eq_false.1 hmissing d hd
    rw [hrow.2, Bool.and_true, beq_iff_eq] at hsome
    obtain ⟨p, hp⟩ := List.exists_mem_of_length_pos (Nat.pos_of_ne_zero hsome)
    obtain ⟨o, ho, _⟩ := exists_occurrence hp
    have hmem := mem_occurrences.2 ⟨d, hd, ho⟩
    refine Or.inr ⟨o, ?_, (row_of_mem_occurrencesFrom ho).trans hrow.1⟩
    simpa [start, opening] using hmem

theorem start_card : (start domains).live.card ≤ (occurrences domains).length :=
  List.toFinset_card_le _

theorem start_numbers (domains : List (NumericDomain n)) :
    ∀ o ∈ (start domains).live, (forcingOf domains).number o ∈ numbersOf domains := by
  intro o ho
  exact mem_numbersOf.2 ⟨o, by simpa [start, opening] using ho, rfl⟩

/-- `NumericSolver::new` has a result, which tracks the first state. -/
theorem new_tracks (hrows : (domains.map NumericDomain.row).Nodup) :
    ∃ g, NumericSolver.new domains = some g ∧
      Tracks (occurrences domains) (requires domains) (numberAt g)
        ((forcingOf domains).lone (start domains)) g (start domains) ∧
      g.order.map (numberAt g) = (numbersOf domains).map some := by
  obtain ⟨b, hb, hbuilt⟩ := Built.nil.foldlM domains (by simpa using hrows)
  rw [List.nil_append] at hbuilt
  have horder : (b.byNumber.map (·.2)).map (numberAt b.graph) = (numbersOf domains).map some := by
    rw [← hbuilt.numbers, List.map_map, List.map_map]
    apply List.map_congr_left
    intro entry hentry
    exact (hbuilt.slots.index _ _).1 ((lookup_eq_some_iff hbuilt.slots.sorted).2 hentry)
  obtain ⟨pending, hpending, hnames⟩ := hbuilt.forcedSlots hrows horder
  refine ⟨{ b.graph with
    order := b.byNumber.map (·.2)
    pending := pending }, ?_, ?_, horder⟩
  · simp only [NumericSolver.new, hb, hpending, Option.bind_eq_bind, Option.bind_some]
  · have htracks := hbuilt.tracks hrows
    exact htracks.of_same rfl rfl rfl rfl rfl hnames htracks.missing

/-- The result is that of the greedy assignment. -/
theorem solve_eq (hrows : (domains.map NumericDomain.row).Nodup) (assignment : VolumeAssignment n)
    {result : Except Forcing.Failure (List (Occurrence n))}
    (hresult : (forcingOf domains).run (occurrences domains).length (start domains)
      (numbersOf domains) = some result) :
    solve assignment domains = some (outcome assignment result) := by
  obtain ⟨g, hg, htracks, horder⟩ := new_tracks hrows
  have hfollows : Follows (occurrences domains) (requires domains) (numberAt g) assignment
      (g, assignment) (start domains) := ⟨htracks, start_settled, rfl⟩
  rw [solve, hg, Option.bind_eq_bind, Option.bind_some]
  exact hfollows.run (occurrences_nodup hrows) start_card horder hresult

/-! ## Registers on the way -/

/-- The live edges with a property. -/
def NumericSolver.liveEdges (g : NumericSolver n) (p : Edge → Bool) : List Nat :=
  (List.range g.edges.length).filter fun e => (g.edges[e]?).any fun edge => edge.live && p edge

/-- The file is unassigned and has one edge left. -/
def NumericSolver.isSingle (g : NumericSolver n) (file : Nat) : Bool :=
  (g.files[file]?).any fun node => !node.assigned && node.degree == 1

/-- The counters and registers are what their names say. -/
structure Registered (g : NumericSolver n) : Prop where
  file : ∀ (f : Nat) (node : FileNode n), g.files[f]? = some node →
    node.degree = (g.liveEdges (·.file = f)).length ∧
      node.remaining = xorAll (g.liveEdges (·.file = f))
  slot : ∀ (k : Nat) (slot : SlotNode), g.slots[k]? = some slot →
    slot.singleFiles =
        (g.liveEdges fun edge => decide (edge.slot = k) && g.isSingle edge.file).length ∧
      slot.singleRemaining =
        xorAll (g.liveEdges fun edge => decide (edge.slot = k) && g.isSingle edge.file)

/-- What `propagate` and `run` claim: the last edge of the single file of a slot, and the narrowest
edge of a slot if there is one narrowest. -/
def Chosen (g : NumericSolver n) (e : Nat) : Prop :=
  ∃ (k : Nat) (slot : SlotNode), g.slots[k]? = some slot ∧
    (slot.singleFiles = 1 ∧ slot.singleRemaining = e ∨
      ∃ width, slot.edges.foldlM g.compareEdge (none, false) = some (some (e, width), false))

/-- The states of the solver, each with the edges that are still to be removed by the claim under
way. -/
inductive Reaches (domains : List (NumericDomain n)) : NumericSolver n → List Nat → Prop
  | new {g : NumericSolver n} : NumericSolver.new domains = some g → Reaches domains g []
  | pop {g : NumericSolver n} {slot : Nat} {rest : List Nat} :
    Reaches domains g [] → g.pending = slot :: rest → Reaches domains { g with pending := rest } []
  | claim {g g' : NumericSolver n} {e : Nat} {edge : Edge} {node : FileNode n} {slot : SlotNode} :
    Reaches domains g [] → Chosen g e → g.edges[e]? = some edge →
      g.files[edge.file]? = some node → g.slots[edge.slot]? = some slot → g.mark e = some g' →
      Reaches domains g' (node.edges ++ slot.edges)
  | remove {g g' : NumericSolver n} {e : Nat} {rest : List Nat} :
    Reaches domains g (e :: rest) → g.remove e = some g' → Reaches domains g' rest

variable {occ : List (Occurrence n)} {required : Fin n → Bool} {names : Nat → Option Nat}
  {g : NumericSolver n} {s : State n}

theorem Reaches.foldlM {l rest : List Nat} {g' : NumericSolver n}
    (h : Reaches domains g (l ++ rest)) (hl : l.foldlM NumericSolver.remove g = some g') :
    Reaches domains g' rest := by
  induction l generalizing g with
  | nil =>
    obtain rfl := Option.some.inj hl
    exact h
  | cons e l ih =>
    rw [List.foldlM_cons, Option.bind_eq_bind, Option.bind_eq_some_iff] at hl
    obtain ⟨g₁, hg₁, hl⟩ := hl
    exact ih (h.remove hg₁) hl

/-- The states of a claim are among them, up to the one it ends with. -/
theorem Reaches.claimed {e : Nat} {assignment : VolumeAssignment n}
    {y : NumericSolver n × VolumeAssignment n} (h : Reaches domains g []) (he : Chosen g e)
    (hclaim : g.claim e assignment = some y) : Reaches domains y.1 [] := by
  simp only [NumericSolver.claim, Option.bind_eq_bind, Option.bind_eq_some_iff] at hclaim
  obtain ⟨edge, hedge, node, hnode, slot, hslot, g₁, hmark, g₂, hfile, g₃, hslots, hy⟩ := hclaim
  have hg₂ : Reaches domains g₂ (slot.edges ++ []) := by
    rw [List.append_nil]
    exact (h.claim he hedge hnode hslot hmark).foldlM hfile
  rw [← Option.some.inj hy]
  exact hg₂.foldlM hslots

theorem Reaches.propagated {assignment : VolumeAssignment n}
    {y : NumericSolver n × VolumeAssignment n} (h : Reaches domains g [])
    (hrun : g.propagate assignment = some y) : Reaches domains y.1 [] := by
  let inv (x : NumericSolver n × VolumeAssignment n) : Prop := Reaches domains x.1 []
  refine loop_inv inv inv ?_ _ _ y h hrun
  intro x t hx hturn
  rw [NumericSolver.propagateBody] at hturn
  cases hpending : x.1.pending with
  | nil =>
    simp only [hpending] at hturn
    rw [← Option.some.inj hturn]
    exact hx
  | cons k rest =>
    have hpop : Reaches domains { x.1 with pending := rest } [] := hx.pop hpending
    simp only [hpending, Option.bind_eq_bind, Option.bind_eq_some_iff] at hturn
    obtain ⟨slot, hslot, hturn⟩ := hturn
    by_cases hone : slot.singleFiles = 1
    · rw [if_pos hone, Option.bind_eq_some_iff] at hturn
      obtain ⟨z, hz, hturn⟩ := hturn
      have hnext : Reaches domains z.1 [] :=
        hpop.claimed ⟨k, slot, hslot, Or.inl ⟨hone, rfl⟩⟩ hz
      rw [← Option.some.inj hturn]
      split_ifs
      · exact hnext
      · exact hnext
    · rw [if_neg hone] at hturn
      rw [← Option.some.inj hturn]
      exact hpop

/-- So the solver is in such a state whenever `run` starts a turn. -/
theorem Reaches.turned {x : (NumericSolver n × VolumeAssignment n) × List Nat}
    {x' : (NumericSolver n × VolumeAssignment n) × List Nat} (h : Reaches domains x.1.1 [])
    (hturn : NumericSolver.runBody x = some (.inl x')) : Reaches domains x'.1.1 [] := by
  simp only [NumericSolver.runBody, Option.bind_eq_bind, Option.bind_eq_some_iff] at hturn
  obtain ⟨t, ht, hturn⟩ := hturn
  have hpropagated := h.propagated ht
  by_cases hmissing : t.1.missing = true
  · rw [if_pos hmissing] at hturn
    exact absurd (Option.some.inj hturn) (by simp)
  · rw [if_neg hmissing, Option.bind_eq_some_iff] at hturn
    obtain ⟨order, _, hturn⟩ := hturn
    cases order with
    | nil => exact absurd (Option.some.inj hturn) (by simp)
    | cons k rest =>
      simp only [Option.bind_eq_some_iff] at hturn
      obtain ⟨slot, hslot, ⟨best, tied⟩, hfound, hturn⟩ := hturn
      cases tied with
      | true => exact absurd (Option.some.inj hturn) (by simp)
      | false =>
        rw [if_neg (by simp), Option.bind_eq_some_iff] at hturn
        obtain ⟨⟨e, width⟩, rfl, hturn⟩ := hturn
        rw [Option.bind_eq_some_iff] at hturn
        obtain ⟨u, hu, hturn⟩ := hturn
        rw [← Sum.inl.inj (Option.some.inj hturn)]
        exact hpropagated.claimed ⟨k, slot, hslot, Or.inr ⟨width, hfound⟩⟩ hu

/-- The registers of a state that is tracked. -/
theorem Tracks.registered (h : Tracks occ required names ((forcing occ required).lone s) g s) :
    Registered g := by
  have hsame (p : Occurrence n → Bool) (q : Edge → Bool)
      (hpq : ∀ (e : Nat) (o : Occurrence n) (edge : Edge), occ[e]? = some o → g.edges[e]? = some edge → EdgeAt s g o edge →
        p o = (edge.live && q edge)) : indexes occ p = g.liveEdges q := by
    rw [indexes, NumericSolver.liveEdges, h.edges_length]
    apply List.filter_congr
    intro e he
    have ho := List.getElem?_eq_getElem (List.mem_range.1 he)
    obtain ⟨edge, hedge, hat⟩ := h.edge e _ ho
    rw [ho, hedge, Option.any_some, Option.any_some]
    exact hpq e _ edge ho hedge hat
  refine ⟨fun f node hnode => ?_, fun k slot hslot => ?_⟩
  · have hat := h.file f node hnode
    obtain ⟨hcount, hvalue⟩ := hat.registry
    have hedges : node.edges.filter (at_ occ (isLive s)) = g.liveEdges (·.file = f) := by
      rw [hat.edges, show at_ occ (isLive s) = fun e => (occ[e]?).any (isLive s) from rfl,
        indexes_filter]
      apply hsame
      intro e o edge ho hedge hedgeAt
      obtain ⟨node', hnode', hrow⟩ := Option.map_eq_some_iff.1 hedgeAt.row
      rw [hedgeAt.live, Bool.and_comm]
      congr 1
      rw [Bool.eq_iff_iff, decide_eq_true_eq, decide_eq_true_eq]
      constructor
      · intro heq
        exact h.file_unique _ _ _ _ hnode' hnode (hrow.trans heq)
      · rintro rfl
        rw [hnode] at hnode'
        rw [Option.some.inj hnode', hrow]
    rw [hedges] at hcount hvalue
    exact ⟨hcount, hvalue⟩
  · have hat := h.slot k slot hslot
    obtain ⟨hcount, hvalue⟩ := hat.registry
    have hedges : slot.edges.filter (at_ occ ((forcing occ required).lone s)) =
        g.liveEdges fun edge => decide (edge.slot = k) && g.isSingle edge.file := by
      rw [hat.edges, show at_ occ ((forcing occ required).lone s) =
        fun e => (occ[e]?).any ((forcing occ required).lone s) from rfl, indexes_filter]
      apply hsame
      intro e o edge ho hedge hedgeAt
      obtain ⟨node, hnode, hrow⟩ := Option.map_eq_some_iff.1 hedgeAt.row
      obtain ⟨slot', hslot', hnumber⟩ := Option.map_eq_some_iff.1 hedgeAt.number
      have hfile := h.file _ _ hnode
      have hslots : decide (o.number = slot.number) = decide (edge.slot = k) := by
        rw [Bool.eq_iff_iff, decide_eq_true_eq, decide_eq_true_eq]
        constructor
        · intro heq
          exact h.slot_unique _ _ _ _ hslot' hslot (hnumber.trans heq)
        · rintro rfl
          rw [hslot] at hslot'
          rw [Option.some.inj hslot', hnumber]
      have hsingle : (forcing occ required).lone s o = (isLive s o && g.isSingle edge.file) := by
        have hrow' : (forcing occ required).row o = node.row := hrow.symm
        rw [NumericSolver.isSingle, hnode, Option.any_some, hfile.assigned, hfile.degree_eq,
          Forcing.lone, hrow', isLive, Bool.and_assoc]
      rw [hslots, hsingle, hedgeAt.live]
      exact Bool.and_left_comm _ _ _
    rw [hedges] at hcount hvalue
    exact ⟨hcount, hvalue⟩

/-- A chosen edge is left. -/
theorem Tracks.chosen (h : Tracks occ required names ((forcing occ required).lone s) g s) {e : Nat}
    (hchosen : Chosen g e) : ∃ o, occ[e]? = some o ∧ o ∈ s.live := by
  obtain ⟨k, slot, hslot, hwhich⟩ := hchosen
  have hat := h.slot k slot hslot
  rcases hwhich with ⟨hone, rfl⟩ | ⟨width, hfold⟩
  · have hregistry := hat.registry
    rw [hone, hat.edges] at hregistry
    obtain ⟨o, ho, honly⟩ := Registry.only_occurrence hregistry
    have hmem : o ∈ (occ.filter (·.number = slot.number)).filter ((forcing occ required).lone s) :=
      honly ▸ List.mem_singleton_self o
    have hlone := (List.mem_filter.1 hmem).2
    simp only [Forcing.lone, Bool.and_eq_true, decide_eq_true_eq] at hlone
    exact ⟨o, ho, hlone.1.1⟩
  · have hedges : slot.edges.map (occ[·]?) = (occ.filter (·.number = slot.number)).map some := by
      rw [hat.edges, indexes_map]
    obtain ⟨best, hbest, hbestOf⟩ := BestOf.start.foldlM h _ _ hedges
    obtain rfl := Option.some.inj (hfold.symm.trans hbest)
    obtain ⟨o, ho, _, hmem, _⟩ := hbestOf.found e width rfl
    rw [List.nil_append] at hmem
    exact ⟨o, ho, of_decide_eq_true (List.mem_filter.1 hmem).2⟩

/-- A state is tracked, and it is settled once the claim under way is done. -/
theorem Reaches.tracks (hrows : (domains.map NumericDomain.row).Nodup) {rest : List Nat}
    (h : Reaches domains g rest) : ∃ (names : Nat → Option Nat) (s : State n) (os : List (Occurrence n)),
      rest.map ((occurrences domains)[·]?) = os.map some ∧
        Tracks (occurrences domains) (requires domains) names ((forcingOf domains).lone s) g s ∧
        (forcingOf domains).Settled (os.foldl (forcingOf domains).remove s) := by
  have hocc := occurrences_nodup hrows
  induction h with
  | new hnew =>
    obtain ⟨g₀, hg₀, htracks, _⟩ := new_tracks hrows
    obtain rfl := Option.some.inj (hnew.symm.trans hg₀)
    exact ⟨_, _, [], rfl, htracks, start_settled⟩
  | @pop g slot rest _ hpending ih =>
    obtain ⟨names, s, os, hos, htracks, hsettled⟩ := ih
    obtain rfl := List.map_eq_nil_iff.1 hos.symm
    have hmap := htracks.pending
    rw [hpending] at hmap
    cases hpending' : s.pending with
    | nil =>
      rw [hpending'] at hmap
      exact absurd hmap (by simp)
    | cons m rest' =>
      rw [hpending'] at hmap
      exact ⟨names, { s with pending := rest' }, [], rfl,
        htracks.of_same rfl rfl rfl rfl rfl (List.cons.inj hmap).2 htracks.missing,
        Forcing.Settled.of_pending hsettled rfl rfl rfl⟩
  | @claim g g' e edge node slot _ hchosen hedge hnode hslot hmark ih =>
    obtain ⟨names, s, os, hos, htracks, hsettled⟩ := ih
    obtain rfl := List.map_eq_nil_iff.1 hos.symm
    rw [List.foldl_nil] at hsettled
    obtain ⟨o, ho, hlive⟩ := htracks.chosen hchosen
    obtain ⟨edge', node', slot', hedge', _, hnode', hrow, hslot', hnumber⟩ := htracks.read ho
    obtain rfl := Option.some.inj (hedge.symm.trans hedge')
    obtain rfl := Option.some.inj (hnode.symm.trans hnode')
    obtain rfl := Option.some.inj (hslot.symm.trans hslot')
    obtain ⟨g₁, hg₁, htracks₁⟩ := htracks.mark hocc ho hlive (hsettled.not_taken hlive)
    obtain rfl := Option.some.inj (hmark.symm.trans hg₁)
    refine ⟨names, _, (forcingOf domains).ofRow o.row ++ (forcingOf domains).ofNumber o.number, ?_,
      htracks₁, ?_⟩
    · rw [List.map_append, List.map_append, (htracks.file _ _ hnode).edges,
        (htracks.slot _ _ hslot).edges, indexes_map, indexes_map, hrow, hnumber]
      rfl
    · rw [List.foldl_append]
      exact hsettled.claim (forcing_wf _ _) hlive
  | @remove g g' e rest _ hremove ih =>
    obtain ⟨names, s, os, hos, htracks, hsettled⟩ := ih
    cases os with
    | nil => exact absurd hos (by simp)
    | cons o os =>
      obtain ⟨ho, hrest⟩ := List.cons.inj hos
      obtain ⟨g₁, hg₁, htracks₁⟩ := htracks.remove hocc ho
      obtain rfl := Option.some.inj (hremove.symm.trans hg₁)
      exact ⟨names, _, os, hrest, htracks₁, hsettled⟩

/-! ## Results -/

theorem lookup_assign (slots : List (Nat × Fin n)) {claims : List (Occurrence n)}
    (hdistinct : claims.Pairwise fun c d => c.number ≠ d.number) (m : Nat) (r : Fin n) :
    (assign slots claims).lookup m = some r ↔ (∃ c ∈ claims, c.number = m ∧ c.row = r) ∨
      (∀ c ∈ claims, c.number ≠ m) ∧ slots.lookup m = some r := by
  induction claims using List.reverseRecOn with
  | nil => simp [assign]
  | append_singleton claims o ih =>
    obtain ⟨hclaims, _, hlast⟩ := List.pairwise_append.1 hdistinct
    rw [assign_concat, lookup_insertKey]
    by_cases hm : m = o.number
    · subst hm
      have hnone : ¬ ∃ c ∈ claims, c.number = o.number ∧ c.row = r := by
        rintro ⟨c, hc, heq, _⟩
        exact hlast c hc o (List.mem_singleton_self o) heq
      rw [if_pos rfl, Option.some_inj]
      constructor
      · rintro rfl
        exact Or.inl ⟨o, by simp, rfl, rfl⟩
      · rintro (⟨c, hc, heq, hrow⟩ | ⟨hall, _⟩)
        · rcases List.mem_append.1 hc with hc | hc
          · exact absurd ⟨c, hc, heq, hrow⟩ hnone
          · rw [← List.mem_singleton.1 hc, hrow]
        · exact absurd rfl (hall o (by simp))
    · rw [if_neg hm, ih hclaims]
      simp only [List.mem_append, List.mem_singleton, or_imp, forall_and, forall_eq]
      constructor
      · rintro (⟨c, hc, heq⟩ | ⟨hall, hslot⟩)
        · exact Or.inl ⟨c, Or.inl hc, heq⟩
        · exact Or.inr ⟨⟨hall, Ne.symm hm⟩, hslot⟩
      · rintro (⟨c, hc | rfl, heq, hrow⟩ | ⟨⟨hall, _⟩, hslot⟩)
        · exact Or.inl ⟨c, hc, heq, hrow⟩
        · exact absurd heq.symm hm
        · exact Or.inr ⟨hall, hslot⟩

/-- The slots of a solved family against those that were given before. -/
structure Extends (assignment : VolumeAssignment n) (domains : List (NumericDomain n))
    (final : VolumeAssignment n) : Prop where
  kept : ∀ m r, assignment.slots.lookup m = some r → final.slots.lookup m = some r
  added : ∀ m r, assignment.slots.lookup m = none → final.slots.lookup m = some r →
    ∃ d ∈ domains, d.row = r ∧ m ∈ d.numbers.map Prod.fst
  once : ∀ m m' r, assignment.slots.lookup m = none → assignment.slots.lookup m' = none →
    final.slots.lookup m = some r → final.slots.lookup m' = some r → m = m'
  required : ∀ d ∈ domains, d.required = true →
    ∃ m, assignment.slots.lookup m = none ∧ final.slots.lookup m = some d.row
  unassigned : ∀ d ∈ domains,
    (∀ m, assignment.slots.lookup m = none → final.slots.lookup m ≠ some d.row) →
    ∀ p ∈ d.numbers, ∃ r, r ≠ d.row ∧ final.slots.lookup p.1 = some r

theorem extends_of_assigned {assignment : VolumeAssignment n}
    (hfree : ∀ d ∈ domains, ∀ p ∈ d.numbers, assignment.slots.lookup p.1 = none)
    {claims : List (Occurrence n)} (h : (forcingOf domains).Assigned claims) :
    Extends assignment domains
      { assignment with
        slots := assign assignment.slots claims
        unresolved := [] } := by
  have hnumbers : claims.Pairwise fun c d => c.number ≠ d.number :=
    h.distinct.imp fun hcd => hcd.2
  have hlookup := lookup_assign assignment.slots hnumbers
  have hclaimed {c : Occurrence n} (hc : c ∈ claims) :
      ∃ d ∈ domains, d.row = c.row ∧ ∃ p ∈ d.numbers, p.1 = c.number := by
    obtain ⟨d, hd, hmem⟩ := mem_occurrences.1 (mem_ofRow.1 (h.claimed c hc))
    obtain ⟨q, hq, hqc⟩ := List.mem_map.1 hmem
    refine ⟨d, hd, (row_of_mem_occurrencesFrom hmem).symm, q.1, List.fst_mem_of_mem_zipIdx hq, ?_⟩
    rw [← hqc]
  have hnew {c : Occurrence n} (hc : c ∈ claims) : assignment.slots.lookup c.number = none := by
    obtain ⟨d, hd, _, p, hp, hpc⟩ := hclaimed hc
    rw [← hpc]
    exact hfree d hd p hp
  have hwon {c : Occurrence n} (hc : c ∈ claims) :
      (assign assignment.slots claims).lookup c.number = some c.row :=
    (hlookup c.number c.row).2 (Or.inl ⟨c, hc, rfl, rfl⟩)
  -- a number that was free has the row of a claim now
  have hclaim {m : Nat} {r : Fin n} (hnone : assignment.slots.lookup m = none)
      (hsome : (assign assignment.slots claims).lookup m = some r) :
      ∃ c ∈ claims, c.number = m ∧ c.row = r := by
    rcases (hlookup m r).1 hsome with hc | ⟨_, hslot⟩
    · exact hc
    · rw [hnone] at hslot
      exact absurd hslot (by simp)
  constructor
  · intro m r hslot
    refine (hlookup m r).2 (Or.inr ⟨fun c hc heq => ?_, hslot⟩)
    have hnone := hnew hc
    rw [heq, hslot] at hnone
    exact absurd hnone (by simp)
  · intro m r hnone hsome
    obtain ⟨c, hc, rfl, rfl⟩ := hclaim hnone hsome
    obtain ⟨d, hd, hrow, p, hp, hpc⟩ := hclaimed hc
    exact ⟨d, hd, hrow, List.mem_map.2 ⟨p, hp, hpc⟩⟩
  · intro m m' r hnone hnone' hsome hsome'
    obtain ⟨c, hc, rfl, rfl⟩ := hclaim hnone hsome
    obtain ⟨c', hc', rfl, hrow⟩ := hclaim hnone' hsome'
    have hrowsNodup : (claims.map Occurrence.row).Nodup :=
      List.pairwise_map.2 (h.distinct.imp fun hcd => hcd.1)
    rw [List.inj_on_of_nodup_map hrowsNodup hc hc' hrow.symm]
  · intro d hd hrequired
    obtain ⟨c, hc, hrow⟩ := h.required d.row (List.any_eq_true.2 ⟨d, hd, by simp [hrequired]⟩)
    have hrow' : c.row = d.row := hrow
    exact ⟨c.number, hnew hc, hrow' ▸ hwon hc⟩
  · intro d hd hnever p hp
    obtain ⟨o, ho, hop⟩ := exists_occurrence hp
    obtain ⟨c, hc, hcases⟩ := h.left o (mem_ofRow.2 (mem_occurrences.2 ⟨d, hd, ho⟩))
    have hother : c.row ≠ d.row := fun heq => hnever c.number (hnew hc) (heq ▸ hwon hc)
    rcases hcases with hrow | hnumber
    · exact absurd (Eq.trans hrow (row_of_mem_occurrencesFrom ho)) hother
    · have heq : c.number = p.1 := Eq.trans hnumber hop
      exact ⟨c.row, hother, heq ▸ hwon hc⟩

/-- A family of distinct rows is solved, with right registers in every state of the solver. -/
theorem solve_extends (assignment : VolumeAssignment n) (domains : List (NumericDomain n))
    (hrows : (domains.map NumericDomain.row).Nodup)
    (hfree : ∀ d ∈ domains, ∀ p ∈ d.numbers, assignment.slots.lookup p.1 = none) :
    (∃ result, solve assignment domains = some result ∧
      (∀ final, result = .ok final → Extends assignment domains final) ∧
      ∀ reason, result = .error reason →
        reason = .missingVolume ∨ reason = .ambiguousVolumeMapping) ∧
    ∀ g rest, Reaches domains g rest → Registered g := by
  constructor
  · obtain ⟨result, hresult, hassigned⟩ := Forcing.run_gives (forcing_wf _ _)
      start_settled start_card (start_numbers domains)
    refine ⟨_, solve_eq hrows assignment hresult, ?_, ?_⟩
    · intro final hfinal
      cases result with
      | ok claims =>
        obtain rfl := Except.ok.inj hfinal
        exact extends_of_assigned hfree (hassigned claims rfl)
      | error failure => cases failure <;> exact absurd hfinal (by simp [outcome])
    · intro reason hreason
      cases result with
      | ok claims => exact absurd hreason (by simp [outcome])
      | error failure =>
        cases failure with
        | missing => exact Or.inl (Except.error.inj hreason).symm
        | ambiguous => exact Or.inr (Except.error.inj hreason).symm
  · intro g rest hreaches
    obtain ⟨names, s, os, _, htracks, _⟩ := hreaches.tracks hrows
    exact htracks.registered

/-- Two rows of a family: the one that is alone with slot 1 leaves slot 2 to the other. -/
theorem solve_extends_two :
    let assignment : VolumeAssignment 2 := { slots := [], companions := [], unresolved := [] }
    let domains : List (NumericDomain 2) := [⟨0, true, [(1, 1)]⟩, ⟨1, true, [(1, 1), (2, 1)]⟩]
    (∃ result, solve assignment domains = some result ∧
      (∀ final, result = .ok final → Extends assignment domains final) ∧
      ∀ reason, result = .error reason →
        reason = .missingVolume ∨ reason = .ambiguousVolumeMapping) ∧
    ∀ g rest, Reaches domains g rest → Registered g :=
  solve_extends _ _ (by decide) fun _ _ _ _ => rfl

end Sunpack.Relations.Numeric
