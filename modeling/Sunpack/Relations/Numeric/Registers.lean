import Sunpack.Lib.Forcing
import Sunpack.Lib.Registry
import Sunpack.Relations.Numeric.Solver

/-!
# The registers of the solver

An occurrence is a number in the domain of a row: an edge without its index. `Tracks` relates a solver
to a state of the greedy assignment over occurrences: its edges are the occurrences in order, and the
registers of its files and slots are the count and the exclusive or of what they should be. Each move
of the solver keeps it.
-/

namespace Sunpack.Relations.Numeric

open Lib

structure Occurrence (n : Nat) where
  row : Fin n
  index : Nat
  number : Nat
  width : Nat
deriving DecidableEq, Repr

variable {n : Nat}

/-- The greedy assignment over a list of occurrences. -/
def forcing (occ : List (Occurrence n)) (required : Fin n → Bool) :
    Forcing (Occurrence n) (Fin n) Nat where
  row := Occurrence.row
  number := Occurrence.number
  width := Occurrence.width
  required := required
  ofRow r := occ.filter (·.row = r)
  ofNumber k := occ.filter (·.number = k)

theorem forcing_wf (occ : List (Occurrence n)) (required : Fin n → Bool) :
    (forcing occ required).WF where
  row_eq h := of_decide_eq_true (List.mem_filter.1 h).2
  number_eq h := of_decide_eq_true (List.mem_filter.1 h).2
  both o := by simp [forcing]

/-! ## Indexes -/

/-- The places of the occurrences with a property. -/
def indexes (occ : List (Occurrence n)) (p : Occurrence n → Bool) : List Nat :=
  (List.range occ.length).filter fun e => (occ[e]?).any p

variable {occ : List (Occurrence n)}

theorem indexes_nodup (p : Occurrence n → Bool) : (indexes occ p).Nodup :=
  List.nodup_range.filter _

theorem mem_indexes {p : Occurrence n → Bool} {e : Nat} :
    e ∈ indexes occ p ↔ ∃ o, occ[e]? = some o ∧ p o = true := by
  rw [indexes, List.mem_filter, List.mem_range, Option.any_eq_true]
  constructor
  · rintro ⟨_, o, ho, hp⟩
    exact ⟨o, ho, hp⟩
  · rintro ⟨o, ho, hp⟩
    exact ⟨(List.getElem?_eq_some_iff.1 ho).1, o, ho, hp⟩

theorem indexes_concat (o : Occurrence n) (p : Occurrence n → Bool) :
    indexes (occ ++ [o]) p = indexes occ p ++ if p o then [occ.length] else [] := by
  have hlast : (occ ++ [o])[occ.length]? = some o := by simp
  have hinit : ∀ e ∈ List.range occ.length, ((occ ++ [o])[e]?).any p = (occ[e]?).any p := by
    intro e he
    rw [List.getElem?_append_left (List.mem_range.1 he)]
  rw [indexes, indexes, List.length_append, List.length_singleton, List.range_succ,
    List.filter_append, List.filter_congr hinit, List.filter_singleton, hlast, Option.any_some,
    Bool.cond_eq_ite]

/-- The occurrences at the places. -/
theorem indexes_map (p : Occurrence n → Bool) :
    (indexes occ p).map (occ[·]?) = (occ.filter p).map some := by
  induction occ using List.reverseRecOn with
  | nil => rfl
  | append_singleton occ o ih =>
    have hinit : (indexes occ p).map ((occ ++ [o])[·]?) = (indexes occ p).map (occ[·]?) := by
      apply List.map_congr_left
      intro e he
      obtain ⟨_, ho, _⟩ := mem_indexes.1 he
      rw [List.getElem?_append_left (List.getElem?_eq_some_iff.1 ho).1]
    rw [indexes_concat, List.map_append, hinit, ih, List.filter_append, List.map_append,
      List.filter_singleton]
    cases p o <;> simp

theorem indexes_filter (p q : Occurrence n → Bool) :
    (indexes occ p).filter (fun e => (occ[e]?).any q) = indexes occ fun o => p o && q o := by
  rw [indexes, indexes, List.filter_filter]
  apply List.filter_congr
  intro e _
  cases occ[e]? with
  | none => rfl
  | some o => simp [Bool.and_comm]

theorem length_indexes (p : Occurrence n → Bool) :
    (indexes occ p).length = (occ.filter p).length := by
  rw [← List.length_map (f := (occ[·]?)), indexes_map, List.length_map]

/-- An occurrence is at one place. -/
theorem index_unique (hocc : occ.Nodup) {x e : Nat} {o : Occurrence n} (hx : occ[x]? = some o)
    (he : occ[e]? = some o) : x = e := by
  obtain ⟨_, hget⟩ := List.getElem?_eq_some_iff.1 hx
  obtain ⟨_, hget'⟩ := List.getElem?_eq_some_iff.1 he
  exact (hocc.getElem_inj_iff).1 (hget.trans hget'.symm)

/-! ## Tracking -/

/-- What holds of the occurrence at a place. -/
def at_ (occ : List (Occurrence n)) (q : Occurrence n → Bool) (e : Nat) : Bool := (occ[e]?).any q

theorem at_some {q : Occurrence n → Bool} {e : Nat} {o : Occurrence n} (h : occ[e]? = some o) :
    at_ occ q e = q o := by
  rw [at_, h, Option.any_some]

abbrev State (n : Nat) := Forcing.State (Occurrence n) Nat

def isLive (s : State n) (o : Occurrence n) : Bool := o ∈ s.live

variable (occ) (required : Fin n → Bool)

structure FileAt (s : State n) (node : FileNode n) : Prop where
  edges : node.edges = indexes occ (·.row = node.row)
  assigned : node.assigned = (forcing occ required).taken s node.row
  required : node.required = required node.row
  registry : Registry (at_ occ (isLive s)) node.edges node.degree node.remaining

/-- The single files of a slot are those with `lone`. -/
structure SlotAt (lone : Occurrence n → Bool) (s : State n) (slot : SlotNode) : Prop where
  edges : slot.edges = indexes occ (·.number = slot.number)
  degree : slot.degree = (slot.edges.filter (at_ occ (isLive s))).length
  registry : Registry (at_ occ lone) slot.edges slot.singleFiles slot.singleRemaining

def rowAt (g : NumericSolver n) (f : Nat) : Option (Fin n) := (g.files[f]?).map (·.row)

def numberAt (g : NumericSolver n) (k : Nat) : Option Nat := (g.slots[k]?).map (·.number)

/-- Where an edge leads. -/
structure EdgeAt (s : State n) (g : NumericSolver n) (o : Occurrence n) (edge : Edge) : Prop where
  row : rowAt g edge.file = some o.row
  number : numberAt g edge.slot = some o.number
  live : edge.live = isLive s o
  width : edge.width = o.width

/-- `names` gives the number of each slot. -/
structure Tracks (names : Nat → Option Nat) (lone : Occurrence n → Bool) (g : NumericSolver n)
    (s : State n) : Prop where
  edges_length : g.edges.length = occ.length
  edge : ∀ (e : Nat) (o : Occurrence n), occ[e]? = some o →
    ∃ edge, g.edges[e]? = some edge ∧ EdgeAt s g o edge
  file : ∀ (f : Nat) (node : FileNode n), g.files[f]? = some node → FileAt occ required s node
  slot : ∀ (k : Nat) (slot : SlotNode), g.slots[k]? = some slot → SlotAt occ lone s slot
  file_unique : ∀ (f f' : Nat) (node node' : FileNode n), g.files[f]? = some node →
    g.files[f']? = some node' → node.row = node'.row → f = f'
  slot_unique : ∀ (k k' : Nat) (slot slot' : SlotNode), g.slots[k]? = some slot →
    g.slots[k']? = some slot' → slot.number = slot'.number → k = k'
  names_eq : ∀ k, numberAt g k = names k
  pending : g.pending.map names = s.pending.map some
  missing : g.missing = s.missing

variable {occ required}

/-- The selected edges of a list of places, counted as occurrences. -/
theorem length_filter_indexes (p q : Occurrence n → Bool) :
    ((indexes occ p).filter (at_ occ q)).length = ((occ.filter p).filter q).length := by
  have h : (indexes occ p).filter (at_ occ q) = indexes occ fun o => p o && q o :=
    indexes_filter p q
  rw [h, length_indexes, List.filter_filter]
  exact congrArg List.length (List.filter_congr fun o _ => Bool.and_comm _ _)

theorem FileAt.degree_eq {s : State n} {node : FileNode n} (h : FileAt occ required s node) :
    node.degree = ((forcing occ required).left s node.row).length := by
  rw [h.registry.count_eq, h.edges, length_filter_indexes]
  rfl

theorem SlotAt.degree_eq {lone : Occurrence n → Bool} {s : State n} {slot : SlotNode}
    (h : SlotAt occ lone s slot) (required : Fin n → Bool) :
    slot.degree = ((forcing occ required).wanted s slot.number).length := by
  rw [h.degree, h.edges, length_filter_indexes]
  rfl

theorem SlotAt.singleFiles_eq {lone : Occurrence n → Bool} {s : State n} {slot : SlotNode}
    (h : SlotAt occ lone s slot) (required : Fin n → Bool) : slot.singleFiles =
      (((forcing occ required).ofNumber slot.number).filter lone).length := by
  rw [h.registry.count_eq, h.edges, length_filter_indexes]
  rfl

/-- One edge is left: the register names it. -/
theorem Registry.only_occurrence {p q : Occurrence n → Bool} {value : Nat}
    (h : Registry (at_ occ q) (indexes occ p) 1 value) :
    ∃ o, occ[value]? = some o ∧ (occ.filter p).filter q = [o] := by
  have hone := h.eq_of_count_one
  have hmem : value ∈ (indexes occ p).filter (at_ occ q) := hone ▸ List.mem_singleton_self value
  obtain ⟨o, ho, hp⟩ := mem_indexes.1 (List.mem_filter.1 hmem).1
  have hq : q o = true := by
    rw [← at_some (q := q) ho]
    exact (List.mem_filter.1 hmem).2
  refine ⟨o, ho, ?_⟩
  have hlen : ((occ.filter p).filter q).length = 1 := by
    rw [← length_filter_indexes, hone, List.length_singleton]
  obtain ⟨x, hx⟩ := List.length_eq_one_iff.1 hlen
  have hmemo : o ∈ (occ.filter p).filter q :=
    List.mem_filter.2 ⟨List.mem_filter.2 ⟨List.mem_of_getElem? ho, hp⟩, hq⟩
  rw [hx] at hmemo ⊢
  rw [List.mem_singleton.1 hmemo]

/-! ## An edge less -/

section Erase

variable {s : State n} {o : Occurrence n} {e : Nat}

/-- The state without an edge. -/
def without (s : State n) (o : Occurrence n) : State n := { s with live := s.live.erase o }

theorem isLive_without (x : Occurrence n) :
    isLive (without s o) x = (isLive s x && decide (x ≠ o)) := by
  rw [Bool.and_comm]
  simp [isLive, without, Finset.mem_erase]

theorem at_without (hocc : occ.Nodup) (ho : occ[e]? = some o) {x : Nat} (hne : x ≠ e) :
    at_ occ (isLive (without s o)) x = at_ occ (isLive s) x := by
  cases hx : occ[x]? with
  | none => rw [at_, at_, hx, Option.any_none, Option.any_none]
  | some y =>
    have hyo : y ≠ o := by
      rintro rfl
      exact hne (index_unique hocc hx ho)
    rw [at_some hx, at_some hx, isLive_without, decide_eq_true hyo, Bool.and_true]

theorem at_without_self (ho : occ[e]? = some o) : at_ occ (isLive (without s o)) e = false := by
  rw [at_some ho, isLive_without]
  simp

/-- The file of the edge. -/
theorem FileAt.erase (hocc : occ.Nodup) (ho : occ[e]? = some o) (hlive : o ∈ s.live)
    {node : FileNode n} (h : FileAt occ required s node) (hrow : node.row = o.row) :
    ∃ node', node.lose e = some node' ∧ node'.row = node.row ∧
      FileAt occ required (without s o) node' := by
  have hmem : e ∈ node.edges := by
    rw [h.edges]
    exact mem_indexes.2 ⟨o, ho, by simp [hrow]⟩
  obtain ⟨hpos, hregistry⟩ := h.registry.remove (h.edges ▸ indexes_nodup _) hmem
    (by simp [at_some ho, isLive, hlive]) (at_without_self (s := s) ho)
    fun x _ hne => at_without hocc ho hne
  rw [FileNode.lose, decrement, if_neg (Nat.ne_of_gt hpos)]
  exact ⟨_, rfl, rfl, h.edges, h.assigned, h.required, hregistry⟩

/-- Another file. -/
theorem FileAt.erase_other (hocc : occ.Nodup) (ho : occ[e]? = some o) {node : FileNode n}
    (h : FileAt occ required s node) (hrow : node.row ≠ o.row) :
    FileAt occ required (without s o) node := by
  refine ⟨h.edges, h.assigned, h.required, h.registry.congr fun x hx => ?_⟩
  apply at_without hocc ho
  rintro rfl
  rw [h.edges, mem_indexes] at hx
  obtain ⟨y, hy, hp⟩ := hx
  obtain rfl := Option.some.inj (ho.symm.trans hy)
  exact hrow (by simpa using Eq.symm (of_decide_eq_true hp))

/-- The single files, less the row of the edge. -/
def loneElse (occ : List (Occurrence n)) (required : Fin n → Bool) (s : State n) (r : Fin n)
    (x : Occurrence n) : Bool :=
  (forcing occ required).lone s x && decide (x.row ≠ r)

theorem left_without {r : Fin n} (hr : r ≠ o.row) :
    (forcing occ required).left (without s o) r = (forcing occ required).left s r := by
  apply List.filter_congr
  intro x hx
  have hxr : x.row = r := of_decide_eq_true (List.mem_filter.1 hx).2
  have hxo : x ≠ o := by
    rintro rfl
    exact hr hxr.symm
  simp [without, Finset.mem_erase, hxo]

/-- A row with two edges left has no single file. -/
theorem loneElse_of_ne {x : Occurrence n} (hx : x ∈ occ) (hoc : o ∈ occ) (hlive : o ∈ s.live)
    (hne : x ≠ o) : loneElse occ required s o.row x = (forcing occ required).lone s x := by
  by_cases hrow : x.row = o.row
  · have hnot : (forcing occ required).lone s x = false := by
      rw [Bool.eq_false_iff]
      intro hlone
      simp only [Forcing.lone, Bool.and_eq_true, decide_eq_true_eq, beq_iff_eq] at hlone
      obtain ⟨⟨hxl, _⟩, hlen⟩ := hlone
      obtain ⟨y, hy⟩ := List.length_eq_one_iff.1 hlen
      have hmem {z : Occurrence n} (hz : z ∈ occ) (hzl : z ∈ s.live) (hzr : z.row = x.row) :
          z ∈ (forcing occ required).left s x.row :=
        List.mem_filter.2 ⟨List.mem_filter.2 ⟨hz, by simpa using hzr⟩, by simpa using hzl⟩
      have hxy := hmem hx hxl rfl
      have hoy := hmem hoc hlive hrow.symm
      have hrowx : (forcing occ required).row x = x.row := rfl
      rw [hrowx] at hy
      rw [hy, List.mem_singleton] at hxy hoy
      exact hne (hxy.trans hoy.symm)
    rw [hnot, loneElse]
    simp [hrow]
  · rw [loneElse, decide_eq_true hrow, Bool.and_true]

theorem loneElse_without {x : Occurrence n} (hx : x ∈ occ) (hoc : o ∈ occ) (hlive : o ∈ s.live)
    (hne : x ≠ o) :
    loneElse occ required (without s o) o.row x = (forcing occ required).lone s x := by
  rw [← loneElse_of_ne hx hoc hlive hne]
  by_cases hrow : x.row = o.row
  · rw [loneElse, loneElse]
    simp [hrow]
  · have hleft : (forcing occ required).left (without s o) ((forcing occ required).row x) =
        (forcing occ required).left s ((forcing occ required).row x) := left_without hrow
    rw [loneElse, loneElse, Forcing.lone, Forcing.lone, hleft]
    congr 3
    simp [without, Finset.mem_erase, hne]

/-- Whether the edge is the last one of a file without a slot. -/
theorem lone_self {node : FileNode n} (h : FileAt occ required s node) (hrow : node.row = o.row)
    (hlive : o ∈ s.live) : (forcing occ required).lone s o = true ↔
      node.degree = 1 ∧ node.assigned = false := by
  rw [h.degree_eq, h.assigned, hrow, Forcing.lone]
  simp only [forcing, hlive, decide_true, Bool.true_and, Bool.and_eq_true, Bool.not_eq_true',
    beq_iff_eq]
  exact and_comm

/-- The slot of the edge, while the file of the edge is not counted. -/
theorem SlotAt.erase (hocc : occ.Nodup) (ho : occ[e]? = some o) (hlive : o ∈ s.live)
    {node : FileNode n} (hnode : FileAt occ required s node) (hrow : node.row = o.row)
    {slot : SlotNode} (h : SlotAt occ ((forcing occ required).lone s) s slot)
    (hnumber : slot.number = o.number) :
    ∃ target target', (if node.degree = 1 ∧ node.assigned = false then slot.leave e
        else some slot) = some target ∧
      target.lose = some target' ∧ target'.number = slot.number ∧
      SlotAt occ (loneElse occ required (without s o) o.row) (without s o) target' := by
  have hoc : o ∈ occ := List.mem_of_getElem? ho
  have hmem : e ∈ slot.edges := by
    rw [h.edges]
    exact mem_indexes.2 ⟨o, ho, by simp [hnumber]⟩
  have hnodup : slot.edges.Nodup := h.edges ▸ indexes_nodup _
  have hperm : (slot.edges.filter (at_ occ (isLive s))).Perm
      (e :: slot.edges.filter (at_ occ (isLive (without s o)))) := by
    apply Registry.filter_perm_cons hnodup hmem (by simp [at_some ho, isLive, hlive])
      (at_without_self ho)
    exact fun x _ hne => at_without hocc ho hne
  have hdegree : slot.degree = (slot.edges.filter (at_ occ (isLive (without s o)))).length + 1 := by
    rw [h.degree, hperm.length_eq, List.length_cons]
  have hself : at_ occ (loneElse occ required (without s o) o.row) e = false := by
    rw [at_some ho, loneElse]
    simp
  have hsame : ∀ x ∈ slot.edges, x ≠ e →
      at_ occ (loneElse occ required (without s o) o.row) x =
        at_ occ ((forcing occ required).lone s) x := by
    intro x hx hne
    rw [h.edges, mem_indexes] at hx
    obtain ⟨y, hy, _⟩ := hx
    have hyo : y ≠ o := by
      rintro rfl
      exact hne (index_unique hocc hy ho)
    rw [at_some hy, at_some hy]
    exact loneElse_without (List.mem_of_getElem? hy) hoc hlive hyo
  by_cases hlast : node.degree = 1 ∧ node.assigned = false
  · have hlone : at_ occ ((forcing occ required).lone s) e = true := by
      rw [at_some ho, lone_self hnode hrow hlive]
      exact hlast
    obtain ⟨hpos, hregistry⟩ := h.registry.remove hnodup hmem hlone hself hsame
    rw [if_pos hlast, SlotNode.leave, decrement, if_neg (Nat.ne_of_gt hpos)]
    have hlose : ∀ target : SlotNode, target.degree = slot.degree →
        target.lose = some { target with degree := target.degree - 1 } := by
      intro target heq
      rw [SlotNode.lose, decrement, if_neg (by omega)]
      rfl
    refine ⟨_, _, rfl, hlose _ rfl, rfl, h.edges, ?_, hregistry⟩
    dsimp only
    omega
  · have hlone : at_ occ ((forcing occ required).lone s) e = false := by
      rw [at_some ho, Bool.eq_false_iff, Ne, lone_self hnode hrow hlive]
      exact hlast
    rw [if_neg hlast]
    refine ⟨slot, { slot with degree := slot.degree - 1 }, rfl, ?_, rfl, h.edges, ?_,
      h.registry.congr fun x hx => ?_⟩
    · rw [SlotNode.lose, decrement, if_neg (by omega)]
      rfl
    · dsimp only
      omega
    · by_cases hxe : x = e
      · rw [hxe, hself, hlone]
      · exact hsame x hx hxe

/-- Another slot. -/
theorem SlotAt.erase_other (hocc : occ.Nodup) (ho : occ[e]? = some o) (hlive : o ∈ s.live)
    {slot : SlotNode} (h : SlotAt occ ((forcing occ required).lone s) s slot)
    (hnumber : slot.number ≠ o.number) :
    SlotAt occ (loneElse occ required (without s o) o.row) (without s o) slot := by
  have hother : ∀ x ∈ slot.edges, x ≠ e ∧ ∃ y, occ[x]? = some y ∧ y ≠ o := by
    intro x hx
    rw [h.edges, mem_indexes] at hx
    obtain ⟨y, hy, hp⟩ := hx
    have hyo : y ≠ o := by
      rintro rfl
      exact hnumber (Eq.symm (of_decide_eq_true hp))
    refine ⟨?_, y, hy, hyo⟩
    rintro rfl
    exact hyo (Option.some.inj (hy.symm.trans ho))
  refine ⟨h.edges, ?_, h.registry.congr fun x hx => ?_⟩
  · rw [h.degree]
    exact congrArg List.length
      (List.filter_congr fun x hx => (at_without hocc ho (hother x hx).1).symm)
  · obtain ⟨_, y, hy, hyo⟩ := hother x hx
    rw [at_some hy, at_some hy]
    exact loneElse_without (List.mem_of_getElem? hy) (List.mem_of_getElem? ho) hlive hyo

end Erase

end Sunpack.Relations.Numeric
