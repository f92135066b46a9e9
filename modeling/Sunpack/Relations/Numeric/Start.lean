import Mathlib.Data.Finset.Sort
import Sunpack.Relations.Numeric.Graph

/-!
# The first state

Where the greedy assignment starts for some domains, and that `NumericSolver::new` tracks it.
-/

namespace Sunpack.Relations.Numeric

open Lib
open NumericSolver (Building)

variable {n : Nat}

/-- Whether the row has to get a number. -/
def requires (domains : List (NumericDomain n)) (r : Fin n) : Bool :=
  domains.any fun d => decide (d.row = r) && d.required

/-- The numbers of the domains, in order. -/
def numbersOf (domains : List (NumericDomain n)) : List Nat :=
  ((occurrences domains).map Occurrence.number).toFinset.sort

/-- Nothing is claimed and nothing is to be looked at. -/
def opening (domains : List (NumericDomain n)) : State n where
  live := (occurrences domains).toFinset
  pending := []
  missing := domains.any fun d => d.numbers.length == 0 && d.required

/-- The numbers that one row is alone with come first. -/
def start (domains : List (NumericDomain n)) : State n :=
  { opening domains with
    pending := (numbersOf domains).filter fun m =>
      ((forcing (occurrences domains) (requires domains)).loners (opening domains) m).length == 1 }

variable {domains : List (NumericDomain n)}

theorem mem_numbersOf {m : Nat} :
    m ∈ numbersOf domains ↔ ∃ o ∈ occurrences domains, o.number = m := by
  rw [numbersOf, Finset.mem_sort, List.mem_toFinset, List.mem_map]

theorem isLive_opening {o : Occurrence n} (ho : o ∈ occurrences domains) :
    isLive (opening domains) o = true := by
  simp [isLive, opening, ho]

theorem lone_opening {o : Occurrence n} (ho : o ∈ occurrences domains) :
    (forcing (occurrences domains) (requires domains)).lone (opening domains) o =
      loneAll (occurrences domains) o := by
  have hleft : (forcing (occurrences domains) (requires domains)).left (opening domains) o.row =
      (occurrences domains).filter (·.row = o.row) := by
    apply List.filter_eq_self.2
    intro x hx
    simpa [opening] using (List.mem_filter.1 hx).1
  have hlive : o ∈ (opening domains).live := by simpa [opening] using ho
  have htaken : (forcing (occurrences domains) (requires domains)).taken (opening domains)
      o.row = false := by
    simp [Forcing.taken, opening]
  have hrow : (forcing (occurrences domains) (requires domains)).row o = o.row := rfl
  rw [Forcing.lone, hrow, hleft, htaken, loneAll, decide_eq_true hlive, Bool.not_false,
    Bool.and_self, Bool.true_and]

theorem filter_occurrences_row (hrows : (domains.map NumericDomain.row).Nodup)
    {d : NumericDomain n} (hd : d ∈ domains) :
    (occurrences domains).filter (·.row = d.row) = occurrencesFrom d.row 0 d.numbers := by
  induction domains using List.reverseRecOn with
  | nil => exact absurd hd (by simp)
  | append_singleton done last ih =>
    rw [List.map_append, List.map_singleton] at hrows
    have hdone := (List.nodup_append.1 hrows).1
    have hdisjoint := (List.nodup_append.1 hrows).2.2
    rw [occurrences_concat, List.filter_append, filter_occurrencesFrom]
    rcases List.mem_append.1 hd with hmem | hmem
    · have hne : last.row ≠ d.row :=
        fun heq => hdisjoint d.row (List.mem_map_of_mem hmem) last.row (by simp) heq.symm
      rw [if_neg hne, List.append_nil, ih hdone hmem]
    · rw [List.mem_singleton.1 hmem, if_pos rfl, filter_occurrences, List.nil_append]
      exact fun hin => hdisjoint last.row hin last.row (by simp) rfl

theorem requires_row (hrows : (domains.map NumericDomain.row).Nodup) {d : NumericDomain n}
    (hd : d ∈ domains) : requires domains d.row = d.required := by
  rw [requires, Bool.eq_iff_iff, List.any_eq_true]
  constructor
  · rintro ⟨d', hd', heq⟩
    rw [Bool.and_eq_true, decide_eq_true_eq] at heq
    rw [← List.inj_on_of_nodup_map hrows hd' hd heq.1]
    exact heq.2
  · intro hrequired
    exact ⟨d, hd, by simp [hrequired]⟩

/-! ## Tracking -/

/-- The registers hold for the opening, whose list is empty. -/
theorem Built.tracks {b : Building n} (h : Built domains b)
    (hrows : (domains.map NumericDomain.row).Nodup) :
    Tracks (occurrences domains) (requires domains) (numberAt b.graph)
      ((forcing (occurrences domains) (requires domains)).lone (opening domains)) b.graph
      (opening domains) where
  edges_length := h.edges.length
  edge e o ho := by
    obtain ⟨edge, hedge, hrow, hnumber, hlive, hwidth⟩ := h.edges.edge e o ho
    refine ⟨edge, hedge, ?_, hnumber, ?_, hwidth⟩
    · rw [rowAt, h.files, List.getElem?_map, Option.map_map]
      rw [List.getElem?_map] at hrow
      exact hrow
    · rw [hlive, isLive_opening (List.mem_of_getElem? ho)]
  file f node hnode := by
    rw [h.files, List.getElem?_map] at hnode
    obtain ⟨d, hd, rfl⟩ := Option.map_eq_some_iff.1 hnode
    have hmem := List.mem_of_getElem? hd
    have hall : (indexes (occurrences domains) (·.row = d.row)).filter
        (at_ (occurrences domains) (isLive (opening domains))) =
          indexes (occurrences domains) (·.row = d.row) := by
      rw [List.filter_eq_self]
      intro e he
      obtain ⟨o, ho, _⟩ := mem_indexes.1 he
      rw [at_some ho, isLive_opening (List.mem_of_getElem? ho)]
    refine ⟨rfl, ?_, (requires_row hrows hmem).symm, ?_, ?_⟩
    · simp [fileNode, Forcing.taken, opening]
    · rw [fileNode, hall, length_indexes, filter_occurrences_row hrows hmem, length_occurrencesFrom]
    · rw [fileNode, hall]
  slot k slot hslot := by
    have hat := h.slots.slot k slot hslot
    refine ⟨hat.edges, ?_, hat.registry.congr fun e he => ?_⟩
    · have hall : slot.edges.filter (at_ (occurrences domains) (isLive (opening domains))) =
          slot.edges := by
        rw [List.filter_eq_self]
        intro e he
        have hlt := hat.mem_lt he
        rw [at_some (List.getElem?_eq_getElem hlt), isLive_opening (List.getElem_mem hlt)]
      rw [hall, hat.degree]
    · have hlt := hat.mem_lt he
      rw [at_some (List.getElem?_eq_getElem hlt), at_some (List.getElem?_eq_getElem hlt),
        lone_opening (List.getElem_mem hlt)]
  file_unique f f' node node' hf hf' heq := by
    rw [h.files, List.getElem?_map] at hf hf'
    obtain ⟨d, hd, rfl⟩ := Option.map_eq_some_iff.1 hf
    obtain ⟨d', hd', rfl⟩ := Option.map_eq_some_iff.1 hf'
    have hlt := (List.getElem?_eq_some_iff.1 hd).1
    have heqd : (domains.map NumericDomain.row)[f]? = (domains.map NumericDomain.row)[f']? := by
      rw [List.getElem?_map, List.getElem?_map, hd, hd', Option.map_some, Option.map_some]
      exact congrArg some heq
    exact (List.getElem?_inj (by rwa [List.length_map]) hrows).1 heqd
  slot_unique := h.slots.unique
  names_eq _ := rfl
  pending := by rw [h.pending]; rfl
  missing := h.missing

/-- The slots of the order with one single file are the numbers that one row is alone with. -/
theorem Built.forcedSlots {b : Building n} (h : Built domains b)
    (hrows : (domains.map NumericDomain.row).Nodup) {order numbers : List Nat}
    (horder : order.map (numberAt b.graph) = numbers.map some) :
    ∃ pending, NumericSolver.forcedSlots b.graph.slots order = some pending ∧
      pending.map (numberAt b.graph) = (numbers.filter fun m =>
        ((forcing (occurrences domains) (requires domains)).loners (opening domains) m).length
          == 1).map some := by
  induction order generalizing numbers with
  | nil =>
    obtain rfl := List.map_eq_nil_iff.1 horder.symm
    exact ⟨[], rfl, rfl⟩
  | cons k order ih =>
    cases numbers with
    | nil => exact absurd horder (by simp)
    | cons m numbers =>
      obtain ⟨hk, hrest⟩ := List.cons.inj horder
      obtain ⟨slot, hslot, hnumber⟩ := Option.map_eq_some_iff.1 hk
      obtain ⟨pending, hpending, hnames⟩ := ih hrest
      have hsingle := ((h.tracks hrows).slot k slot hslot).singleFiles_eq (requires domains)
      rw [hnumber] at hsingle
      have hloners : slot.singleFiles =
          ((forcing (occurrences domains) (requires domains)).loners (opening domains) m).length :=
        hsingle
      simp only [NumericSolver.forcedSlots, hslot, hpending, Option.bind_eq_bind, Option.bind_some]
      refine ⟨_, rfl, ?_⟩
      rw [List.filter_cons, ← hloners]
      by_cases hone : slot.singleFiles = 1
      · rw [if_pos hone, if_pos (by simpa using hone), List.map_cons, List.map_cons, hnames, hk]
      · rw [if_neg hone, if_neg (by simpa using hone), hnames]

/-- The keys of `by_number` are the numbers of the domains. -/
theorem Built.numbers {b : Building n} (h : Built domains b) :
    b.byNumber.map Prod.fst = numbersOf domains := by
  have hsorted : (b.byNumber.map Prod.fst).Pairwise (· < ·) := List.pairwise_map.2 h.slots.sorted
  apply hsorted.eq_of_mem_iff (Finset.sortedLT_sort _).pairwise
  intro m
  rw [← numbersOf, mem_numbersOf, List.mem_map]
  constructor
  · rintro ⟨⟨m', k⟩, hmem, rfl⟩
    have hfound := (lookup_eq_some_iff h.slots.sorted).2 hmem
    exact h.used m' (by rw [hfound, Option.isSome_some])
  · rintro ⟨o, ho, rfl⟩
    obtain ⟨k, hk⟩ := Option.isSome_iff_exists.1 (h.slots.covers o ho)
    exact ⟨(o.number, k), (lookup_eq_some_iff h.slots.sorted).1 hk, rfl⟩

end Sunpack.Relations.Numeric
