import Sunpack.Relations.Numeric.Registers

/-!
# Removing and claiming, tracked

`remove` and `claim` of the solver have a result, and it tracks the removal and the claim of the
greedy assignment.
-/

namespace Sunpack.Relations.Numeric

open Lib

/-! ## Updates of a vector -/

theorem getElem?_set_some {α : Type} {l : List α} {i : Nat} {x : α} (h : l[i]? = some x) (a : α)
    (j : Nat) : (l.set i a)[j]? = if j = i then some a else l[j]? := by
  have hlt := (List.getElem?_eq_some_iff.1 h).1
  by_cases hj : j = i
  · rw [if_pos hj, hj, List.getElem?_set_self hlt]
  · rw [if_neg hj, List.getElem?_set_ne (Ne.symm hj)]

/-- What an update does not change can still be read. -/
theorem map_getElem?_set {α β : Type} {l : List α} {i : Nat} {x a : α} (h : l[i]? = some x)
    (f : α → β) (hf : f a = f x) (j : Nat) : ((l.set i a)[j]?).map f = (l[j]?).map f := by
  rw [getElem?_set_some h]
  by_cases hj : j = i
  · rw [if_pos hj, hj, h, Option.map_some, Option.map_some, hf]
  · rw [if_neg hj]

/-- Elements keep a key that none of them shares, after an update that keeps it. -/
theorem unique_set {α β : Type} {l : List α} {i : Nat} {x a : α} (h : l[i]? = some x) (f : α → β)
    (hf : f a = f x)
    (huniq : ∀ (j k : Nat) (y z : α), l[j]? = some y → l[k]? = some z → f y = f z → j = k) :
    ∀ (j k : Nat) (y z : α), (l.set i a)[j]? = some y → (l.set i a)[k]? = some z → f y = f z →
      j = k := by
  have hback (j : Nat) (y : α) (hy : (l.set i a)[j]? = some y) :
      ∃ y', l[j]? = some y' ∧ f y' = f y := by
    rw [getElem?_set_some h] at hy
    split_ifs at hy with hj
    · obtain rfl := Option.some.inj hy
      exact ⟨x, hj ▸ h, hf.symm⟩
    · exact ⟨y, hy, rfl⟩
  intro j k y z hy hz hkey
  obtain ⟨y', hy', hfy⟩ := hback j y hy
  obtain ⟨z', hz', hfz⟩ := hback k z hz
  exact huniq j k y' z' hy' hz' (hfy.trans (hkey.trans hfz.symm))

variable {n : Nat} {occ : List (Occurrence n)} {required : Fin n → Bool}
  {names : Nat → Option Nat} {lone : Occurrence n → Bool} {g : NumericSolver n} {s : State n}

/-! ## Removing -/

theorem Tracks.read (h : Tracks occ required names lone g s) {e : Nat} {o : Occurrence n}
    (ho : occ[e]? = some o) : ∃ edge node slot, g.edges[e]? = some edge ∧ EdgeAt s g o edge ∧
      g.files[edge.file]? = some node ∧ node.row = o.row ∧
      g.slots[edge.slot]? = some slot ∧ slot.number = o.number := by
  obtain ⟨edge, hedge, hat⟩ := h.edge e o ho
  obtain ⟨node, hnode, hrow⟩ := Option.map_eq_some_iff.1 hat.row
  obtain ⟨slot, hslot, hnumber⟩ := Option.map_eq_some_iff.1 hat.number
  exact ⟨edge, node, slot, hedge, hat, hnode, hrow, hslot, hnumber⟩

theorem Tracks.detach (hocc : occ.Nodup)
    (h : Tracks occ required names ((forcing occ required).lone s) g s) {e : Nat} {o : Occurrence n}
    (ho : occ[e]? = some o) (hlive : o ∈ s.live) {edge : Edge} (hedge : g.edges[e]? = some edge)
    (hat : EdgeAt s g o edge) :
    ∃ g', g.detach e edge = some g' ∧ rowAt g' edge.file = some o.row ∧
      Tracks occ required names (loneElse occ required (without s o) o.row) g'
        { without s o with
          pending := s.pending ++ (forcing occ required).again (without s o) o } := by
  obtain ⟨node, hnode, hrow⟩ := Option.map_eq_some_iff.1 hat.row
  obtain ⟨slot, hslot, hnumber⟩ := Option.map_eq_some_iff.1 hat.number
  have hfile := h.file _ _ hnode
  obtain ⟨node', hlose, hrow', hfile'⟩ := hfile.erase hocc ho hlive hrow
  obtain ⟨target, target', htarget, hlose', hnumber', hslot'⟩ :=
    (h.slot _ _ hslot).erase hocc ho hlive hfile hrow hnumber
  have hagain : (if target'.singleFiles = 1 then g.pending ++ [edge.slot] else g.pending) =
      g.pending ++ if target'.singleFiles = 1 then [edge.slot] else [] := by
    split_ifs
    · rfl
    · rw [List.append_nil]
  have hcount : target'.singleFiles = (((forcing occ required).loners (without s o) o.number).filter
      fun x => (forcing occ required).row x ≠ (forcing occ required).row o).length := by
    rw [hslot'.singleFiles_eq required, hnumber', hnumber, Forcing.loners,
      List.filter_filter]
    exact congrArg List.length (List.filter_congr fun x _ => Bool.and_comm _ _)
  refine ⟨{ g with
    edges := g.edges.set e { edge with live := false }
    files := g.files.set edge.file node'
    slots := g.slots.set edge.slot target'
    pending := if target'.singleFiles = 1 then g.pending ++ [edge.slot] else g.pending }, ?_, ?_, ?_⟩
  · simp only [NumericSolver.detach, hnode, hslot, Option.bind_eq_bind, Option.bind_some]
    by_cases hlast : node.degree = 1 ∧ node.assigned = false
    · rw [if_pos hlast] at htarget ⊢
      simp only [htarget, hlose, hlose', Option.bind_some]
    · rw [if_neg hlast] at htarget ⊢
      obtain rfl := Option.some.inj htarget
      simp only [hlose, hlose', Option.bind_some]
  · exact (map_getElem?_set hnode (·.row) hrow' _).trans hat.row
  have hrows (f : Nat) : ((g.files.set edge.file node')[f]?).map (·.row) = rowAt g f :=
    map_getElem?_set hnode (·.row) hrow' f
  have hnumbers (k : Nat) : ((g.slots.set edge.slot target')[k]?).map (·.number) = numberAt g k :=
    map_getElem?_set hslot (·.number) hnumber' k
  refine ⟨?_, fun e' o' ho' => ?_, fun f node₂ hnode₂ => ?_, fun k slot₂ hslot₂ => ?_, ?_, ?_,
    fun k => (hnumbers k).trans (h.names_eq k), ?_, h.missing⟩
  · rw [List.length_set]
    exact h.edges_length
  · obtain ⟨edge', hedge', hat'⟩ := h.edge e' o' ho'
    dsimp only
    rw [getElem?_set_some hedge]
    by_cases he : e' = e
    · subst he
      obtain rfl := Option.some.inj (ho.symm.trans ho')
      refine ⟨_, if_pos rfl, (hrows _).trans hat.row, (hnumbers _).trans hat.number, ?_, hat.width⟩
      simp [isLive, without]
    · refine ⟨edge', by rw [if_neg he, hedge'], (hrows _).trans hat'.row,
        (hnumbers _).trans hat'.number, ?_, hat'.width⟩
      have hkeep := at_without (s := s) hocc ho he
      rw [at_some ho', at_some ho'] at hkeep
      rw [hat'.live]
      exact hkeep.symm
  · rw [getElem?_set_some hnode] at hnode₂
    split_ifs at hnode₂ with hf
    · obtain rfl := Option.some.inj hnode₂
      exact ⟨hfile'.edges, hfile'.assigned, hfile'.required, hfile'.registry⟩
    · have hne : node₂.row ≠ o.row := fun heq =>
        hf (h.file_unique _ _ _ _ hnode₂ hnode (heq.trans hrow.symm))
      have hold := (h.file _ _ hnode₂).erase_other hocc ho hne
      exact ⟨hold.edges, hold.assigned, hold.required, hold.registry⟩
  · rw [getElem?_set_some hslot] at hslot₂
    split_ifs at hslot₂ with hk
    · obtain rfl := Option.some.inj hslot₂
      exact ⟨hslot'.edges, hslot'.degree, hslot'.registry⟩
    · have hne : slot₂.number ≠ o.number := fun heq =>
        hk (h.slot_unique _ _ _ _ hslot₂ hslot (heq.trans hnumber.symm))
      have hold := (h.slot _ _ hslot₂).erase_other hocc ho hlive hne
      exact ⟨hold.edges, hold.degree, hold.registry⟩
  · exact unique_set hnode (·.row) hrow' h.file_unique
  · exact unique_set hslot (·.number) hnumber' h.slot_unique
  · have heq : (forcing occ required).again (without s o) o =
        if target'.singleFiles = 1 then [o.number] else [] := by
      rw [hcount]
      rfl
    dsimp only
    rw [hagain, List.map_append, List.map_append, heq]
    rw [h.pending]
    congr 1
    split_ifs
    · rw [List.map_singleton, List.map_singleton, ← h.names_eq, hat.number]
    · rfl

theorem SlotAt.congr {lone' : Occurrence n → Bool} {slot : SlotNode} (h : SlotAt occ lone s slot)
    (hsame : ∀ x ∈ occ, lone' x = lone x) : SlotAt occ lone' s slot := by
  refine ⟨h.edges, h.degree, h.registry.congr fun e he => ?_⟩
  rw [h.edges, mem_indexes] at he
  obtain ⟨o, ho, _⟩ := he
  rw [at_some ho, at_some ho]
  exact hsame o (List.mem_of_getElem? ho)

theorem Tracks.congr {lone' : Occurrence n → Bool} (h : Tracks occ required names lone g s)
    (hsame : ∀ x ∈ occ, lone' x = lone x) : Tracks occ required names lone' g s :=
  { h with slot := fun k slot hslot => (h.slot k slot hslot).congr hsame }

/-- What is pending or missing does not matter to the registers. -/
theorem Tracks.of_same {t : State n} {g' : NumericSolver n} (h : Tracks occ required names lone g s)
    (hlive : t.live = s.live) (hclaims : t.claims = s.claims) (hedges : g'.edges = g.edges)
    (hfiles : g'.files = g.files) (hslots : g'.slots = g.slots)
    (hpending : g'.pending.map names = t.pending.map some)
    (hmissing : g'.missing = t.missing) : Tracks occ required names lone g' t := by
  have hlive' : isLive t = isLive s := by
    funext o
    rw [isLive, isLive, hlive]
  have htaken : (forcing occ required).taken t = (forcing occ required).taken s := by
    funext r
    rw [Forcing.taken, Forcing.taken, hclaims]
  have hrows : rowAt g' = rowAt g := by
    funext f
    rw [rowAt, rowAt, hfiles]
  have hnumbers : numberAt g' = numberAt g := by
    funext k
    rw [numberAt, numberAt, hslots]
  refine ⟨hedges ▸ h.edges_length, fun e o ho => ?_, fun f node hnode => ?_,
    fun k slot hslot => ?_, hfiles ▸ h.file_unique, hslots ▸ h.slot_unique,
    hnumbers ▸ h.names_eq, hpending, hmissing⟩
  · obtain ⟨edge, hedge, hat⟩ := h.edge e o ho
    exact ⟨edge, hedges ▸ hedge, hrows ▸ hat.row, hnumbers ▸ hat.number, hlive' ▸ hat.live,
      hat.width⟩
  · have hold := h.file f node (hfiles ▸ hnode)
    exact ⟨hold.edges, htaken ▸ hold.assigned, hold.required, hlive' ▸ hold.registry⟩
  · have hold := h.slot k slot (hslots ▸ hslot)
    exact ⟨hold.edges, hlive' ▸ hold.degree, hold.registry⟩

/-- A row that has not exactly one edge left has no single file. -/
theorem lone_eq_loneElse {r : Fin n}
    (h : (forcing occ required).taken s r = true ∨ ((forcing occ required).left s r).length ≠ 1)
    (x : Occurrence n) :
    (forcing occ required).lone s x = loneElse occ required s r x := by
  by_cases hx : x.row = r
  · have hlone : (forcing occ required).lone s x = false := by
      rw [Forcing.lone]
      rcases h with h | h
      · simp [forcing, hx] at h ⊢
        simp [h]
      · simp [forcing, hx] at h ⊢
        simp [h]
    rw [hlone, loneElse]
    simp [hx]
  · rw [loneElse, decide_eq_true hx, Bool.and_true]

/-- The single files once the last edge of a row is counted. -/
theorem lone_of_left {r : Fin n} {o : Occurrence n}
    (htaken : ¬(forcing occ required).taken s r = true)
    (hleft : (forcing occ required).left s r = [o]) :
    (forcing occ required).lone s o = true ∧ loneElse occ required s r o = false ∧
      ∀ x ∈ occ, x ≠ o → (forcing occ required).lone s x = loneElse occ required s r x := by
  obtain ⟨_, hrow, hlive⟩ := (Forcing.mem_left (forcing_wf occ required)).1
    (show o ∈ (forcing occ required).left s r from hleft ▸ List.mem_singleton_self o)
  have hrow' : o.row = r := hrow
  refine ⟨?_, ?_, fun x hx hne => ?_⟩
  · rw [Forcing.lone, hrow, hleft]
    simp [hlive, htaken]
  · rw [loneElse]
    simp [hrow']
  · by_cases hxr : x.row = r
    · have hdead : x ∉ s.live := by
        intro hxl
        have hmem : x ∈ (forcing occ required).left s r :=
          List.mem_filter.2 ⟨List.mem_filter.2 ⟨hx, by simpa using hxr⟩, by simpa using hxl⟩
        rw [hleft, List.mem_singleton] at hmem
        exact hne hmem
      rw [loneElse, Forcing.lone]
      simp [hdead]
    · rw [loneElse, decide_eq_true hxr, Bool.and_true]

/-- The last edge of a file joins the registry of its slot. -/
theorem Tracks.join (hocc : occ.Nodup) {lone' : Occurrence n → Bool}
    (h : Tracks occ required names lone g s) {e : Nat} {o : Occurrence n} (ho : occ[e]? = some o)
    (hnot : lone o = false) (hlone : lone' o = true)
    (hsame : ∀ x ∈ occ, x ≠ o → lone' x = lone x) {k : Nat} {slot : SlotNode}
    (hslot : g.slots[k]? = some slot) (hnumber : slot.number = o.number) :
    Tracks occ required names lone'
      { g with
        slots := g.slots.set k (slot.join e)
        pending := g.pending ++ [k] }
      { s with pending := s.pending ++ [o.number] } := by
  have hkey : (slot.join e).number = slot.number := rfl
  have hnumbers (j : Nat) : ((g.slots.set k (slot.join e))[j]?).map (·.number) = numberAt g j :=
    map_getElem?_set hslot (·.number) hkey j
  refine ⟨h.edges_length, fun e' o' ho' => ?_, fun f node hnode => ?_, fun j slot₂ hslot₂ => ?_,
    h.file_unique, unique_set hslot (·.number) hkey h.slot_unique,
    fun j => (hnumbers j).trans (h.names_eq j), ?_, h.missing⟩
  · obtain ⟨edge', hedge', hat'⟩ := h.edge e' o' ho'
    exact ⟨edge', hedge', hat'.row, (hnumbers _).trans hat'.number, hat'.live, hat'.width⟩
  · have hold := h.file f node hnode
    exact ⟨hold.edges, hold.assigned, hold.required, hold.registry⟩
  · dsimp only at hslot₂
    rw [getElem?_set_some hslot] at hslot₂
    split_ifs at hslot₂ with hj
    · obtain rfl := Option.some.inj hslot₂
      have hold := h.slot _ _ hslot
      have hmem : e ∈ slot.edges := by
        rw [hold.edges]
        exact mem_indexes.2 ⟨o, ho, by simp [hnumber]⟩
      refine ⟨hold.edges, hold.degree, hold.registry.add (hold.edges ▸ indexes_nodup _) hmem
        ((at_some ho).trans hnot) ((at_some ho).trans hlone) fun x hx hne => ?_⟩
      rw [hold.edges, mem_indexes] at hx
      obtain ⟨y, hy, _⟩ := hx
      rw [at_some hy, at_some hy]
      refine hsame y (List.mem_of_getElem? hy) ?_
      rintro rfl
      exact hne (index_unique hocc hy ho)
    · have hold := h.slot _ _ hslot₂
      refine ⟨hold.edges, hold.degree, hold.registry.congr fun x hx => ?_⟩
      rw [hold.edges, mem_indexes] at hx
      obtain ⟨y, hy, hyn⟩ := hx
      rw [at_some hy, at_some hy]
      refine hsame y (List.mem_of_getElem? hy) ?_
      rintro rfl
      exact hj (h.slot_unique _ _ _ _ hslot₂ hslot
        ((of_decide_eq_true hyn).symm.trans hnumber.symm))
  · dsimp only
    rw [List.map_append, List.map_append, h.pending]
    congr 1
    rw [List.map_singleton, List.map_singleton, ← h.names_eq, numberAt, hslot, Option.map_some,
      hnumber]

theorem Tracks.wake (hocc : occ.Nodup) {r : Fin n} {f : Nat}
    (h : Tracks occ required names (loneElse occ required s r) g s) (hf : rowAt g f = some r) :
    ∃ g', g.wake f = some g' ∧ Tracks occ required names ((forcing occ required).lone s) g'
      ((forcing occ required).wake s r) := by
  obtain ⟨node, hnode, rfl⟩ := Option.map_eq_some_iff.1 hf
  have hfile := h.file _ _ hnode
  have hdegree := hfile.degree_eq
  simp only [NumericSolver.wake, hnode, Option.bind_eq_bind, Option.bind_some, Forcing.wake,
    hfile.assigned, hfile.required]
  by_cases htaken : (forcing occ required).taken s node.row = true
  · rw [if_pos htaken, if_pos htaken]
    exact ⟨g, rfl, h.congr fun x _ => lone_eq_loneElse (Or.inl htaken) x⟩
  · rw [if_neg htaken, if_neg htaken]
    cases hleft : (forcing occ required).left s node.row with
    | nil =>
      rw [hleft, List.length_nil] at hdegree
      have hnone : ((forcing occ required).left s node.row).length ≠ 1 := by simp [hleft]
      have hkeep := h.congr fun x _ => lone_eq_loneElse (Or.inr hnone) x
      rw [if_neg (by omega)]
      split_ifs with hmissing
      · refine ⟨_, rfl, hkeep.of_same rfl rfl rfl rfl rfl hkeep.pending ?_⟩
        have hreq : (forcing occ required).required node.row = true := hmissing.2
        dsimp only
        rw [hreq, Bool.or_true]
      · refine ⟨_, rfl, hkeep.of_same rfl rfl rfl rfl rfl hkeep.pending ?_⟩
        have hreq : (forcing occ required).required node.row = false := by
          simpa [hdegree, forcing] using hmissing
        dsimp only
        rw [hreq, Bool.or_false]
        exact hkeep.missing
    | cons o l =>
      cases l with
      | cons y l =>
        rw [hleft, List.length_cons, List.length_cons] at hdegree
        rw [if_neg (by omega), if_neg (by omega)]
        exact ⟨g, rfl, h.congr fun x _ => lone_eq_loneElse (Or.inr (by simp [hleft])) x⟩
      | nil =>
        rw [hleft, List.length_singleton] at hdegree
        rw [if_pos hdegree]
        have hregistry := hfile.registry
        rw [hdegree, hfile.edges] at hregistry
        obtain ⟨o', ho, hone⟩ := Registry.only_occurrence hregistry
        have hsame : (forcing occ required).left s node.row = [o'] := hone
        obtain rfl : o = o' := (List.cons.inj (hleft.symm.trans hsame)).1
        obtain ⟨last, lastNode, slot, hlast, hat, _, _, hslot, hnumber⟩ := h.read ho
        obtain ⟨hlone, hnot, hrest⟩ := lone_of_left htaken hleft
        simp only [hlast, hslot, Option.bind_some]
        exact ⟨_, rfl, h.join hocc ho hnot hlone hrest hslot hnumber⟩

/-- `remove` tracks the removal of the edge. -/
theorem Tracks.remove (hocc : occ.Nodup)
    (h : Tracks occ required names ((forcing occ required).lone s) g s) {e : Nat} {o : Occurrence n}
    (ho : occ[e]? = some o) :
    ∃ g', g.remove e = some g' ∧ Tracks occ required names
      ((forcing occ required).lone ((forcing occ required).remove s o)) g'
      ((forcing occ required).remove s o) := by
  obtain ⟨edge, hedge, hat⟩ := h.edge e o ho
  simp only [NumericSolver.remove, hedge, Option.bind_eq_bind, Option.bind_some, hat.live, isLive,
    decide_eq_true_eq, Forcing.remove]
  by_cases hlive : o ∈ s.live
  · rw [if_pos hlive, if_pos hlive]
    obtain ⟨g₁, hg₁, hrow, htracks⟩ := h.detach hocc ho hlive hedge hat
    obtain ⟨g₂, hg₂, hwake⟩ := Tracks.wake (s := { without s o with
      pending := s.pending ++ (forcing occ required).again (without s o) o }) hocc htracks hrow
    rw [hg₁, Option.bind_some]
    refine ⟨g₂, hg₂, ?_⟩
    have hlone : (forcing occ required).lone ((forcing occ required).afterRemoval
        { s with live := s.live.erase o } o) = (forcing occ required).lone (without s o) := by
      funext x
      rw [Forcing.lone, Forcing.lone, Forcing.left, Forcing.left, Forcing.taken, Forcing.taken,
        Forcing.afterRemoval, Forcing.wake_live, Forcing.wake_claims]
      rfl
    rw [hlone]
    exact hwake
  · rw [if_neg hlive, if_neg hlive]
    exact ⟨g, rfl, h⟩

/-- The removal of several edges. -/
theorem Tracks.foldlM_remove (hocc : occ.Nodup) (l : List Nat) (os : List (Occurrence n))
    (hl : l.map (occ[·]?) = os.map some) {g : NumericSolver n} {s : State n}
    (h : Tracks occ required names ((forcing occ required).lone s) g s) :
    ∃ g', l.foldlM NumericSolver.remove g = some g' ∧ Tracks occ required names
      ((forcing occ required).lone (os.foldl (forcing occ required).remove s)) g'
      (os.foldl (forcing occ required).remove s) := by
  induction l generalizing os g s with
  | nil =>
    obtain rfl := List.map_eq_nil_iff.1 hl.symm
    exact ⟨g, rfl, h⟩
  | cons e l ih =>
    cases os with
    | nil => exact absurd hl (by simp)
    | cons o os =>
      obtain ⟨ho, hl⟩ := List.cons.inj hl
      obtain ⟨g₁, hg₁, h₁⟩ := h.remove hocc ho
      obtain ⟨g₂, hg₂, h₂⟩ := ih os hl h₁
      refine ⟨g₂, ?_, h₂⟩
      rw [List.foldlM_cons, hg₁, Option.bind_eq_bind, Option.bind_some, hg₂]

/-! ## Claiming -/

/-- An assigned row has no single file. -/
theorem lone_of_claim (o : Occurrence n) (x : Occurrence n) :
    (forcing occ required).lone { s with claims := s.claims ++ [o] } x =
      loneElse occ required s o.row x := by
  have htaken : (forcing occ required).taken { s with claims := s.claims ++ [o] } x.row =
      ((forcing occ required).taken s x.row || decide (x.row = o.row)) := by
    rw [Forcing.taken, Forcing.taken, List.map_append, Bool.eq_iff_iff]
    simp [forcing]
  have hrow : (forcing occ required).row x = x.row := rfl
  rw [loneElse, Forcing.lone, Forcing.lone, hrow, htaken, Forcing.left, Forcing.left]
  dsimp only
  by_cases hx : x.row = o.row
  · simp [hx]
  · simp [hx]

theorem taken_of_claim (o : Occurrence n) (r : Fin n) :
    (forcing occ required).taken { s with claims := s.claims ++ [o] } r =
      ((forcing occ required).taken s r || decide (r = o.row)) := by
  rw [Forcing.taken, Forcing.taken, List.map_append, Bool.eq_iff_iff]
  simp [forcing]

/-- The slot of a claimed edge: its file is not single any more. -/
theorem SlotAt.mark (hocc : occ.Nodup) {e : Nat} {o : Occurrence n} (ho : occ[e]? = some o)
    (hlive : o ∈ s.live) (htaken : (forcing occ required).taken s o.row = false)
    {node : FileNode n} (hnode : FileAt occ required s node) (hrow : node.row = o.row)
    {slot : SlotNode} (h : SlotAt occ ((forcing occ required).lone s) s slot)
    (hnumber : slot.number = o.number) :
    ∃ target, (if node.degree = 1 then slot.leave e else some slot) = some target ∧
      target.number = slot.number ∧ SlotAt occ (loneElse occ required s o.row) s target := by
  have hdegree := hnode.degree_eq
  rw [hrow] at hdegree
  have hassigned : node.assigned = false := by rw [hnode.assigned, hrow, htaken]
  by_cases hlast : node.degree = 1
  · have hlone := (lone_self hnode hrow hlive).2 ⟨hlast, hassigned⟩
    have hleft : (forcing occ required).left s o.row = [o] := by
      obtain ⟨x, hx⟩ := List.length_eq_one_iff.1 (hdegree.symm.trans hlast)
      have hmem : o ∈ (forcing occ required).left s o.row :=
        (Forcing.mem_left (forcing_wf occ required)).2
          ⟨List.mem_filter.2 ⟨List.mem_of_getElem? ho, by simp⟩, rfl, hlive⟩
      rw [hx, List.mem_singleton] at hmem
      rw [hx, hmem]
    obtain ⟨_, hnot, hsame⟩ := lone_of_left (by rw [htaken]; simp) hleft
    have hmem : e ∈ slot.edges := by
      rw [h.edges]
      exact mem_indexes.2 ⟨o, ho, by simp [hnumber]⟩
    obtain ⟨hpos, hregistry⟩ := h.registry.remove
      (q := at_ occ (loneElse occ required s o.row)) (h.edges ▸ indexes_nodup _) hmem
      ((at_some ho).trans hlone) ((at_some ho).trans hnot) fun x hx hne => by
        rw [h.edges, mem_indexes] at hx
        obtain ⟨y, hy, _⟩ := hx
        rw [at_some hy, at_some hy]
        refine (hsame y (List.mem_of_getElem? hy) ?_).symm
        rintro rfl
        exact hne (index_unique hocc hy ho)
    rw [if_pos hlast, SlotNode.leave, decrement, if_neg (Nat.ne_of_gt hpos)]
    exact ⟨_, rfl, rfl, h.edges, h.degree, hregistry⟩
  · rw [if_neg hlast]
    have hlen : ((forcing occ required).left s o.row).length ≠ 1 := by omega
    exact ⟨slot, rfl, rfl, h.congr fun x _ => (lone_eq_loneElse (Or.inr hlen) x).symm⟩

theorem Tracks.mark (hocc : occ.Nodup)
    (h : Tracks occ required names ((forcing occ required).lone s) g s) {e : Nat}
    {o : Occurrence n} (ho : occ[e]? = some o) (hlive : o ∈ s.live)
    (htaken : (forcing occ required).taken s o.row = false) :
    ∃ g', g.mark e = some g' ∧ Tracks occ required names
      ((forcing occ required).lone { s with claims := s.claims ++ [o] }) g'
      { s with claims := s.claims ++ [o] } := by
  obtain ⟨edge, node, slot, hedge, hat, hnode, hrow, hslot, hnumber⟩ := h.read ho
  have hfile := h.file _ _ hnode
  obtain ⟨target, htarget, htnumber, hslot'⟩ :=
    (h.slot _ _ hslot).mark hocc ho hlive htaken hfile hrow hnumber
  have hkey : ({ node with assigned := true } : FileNode n).row = node.row := rfl
  refine ⟨{ g with
    files := g.files.set edge.file { node with assigned := true }
    slots := g.slots.set edge.slot target }, ?_, ?_⟩
  · simp only [NumericSolver.mark, hedge, hnode, hslot, Option.bind_eq_bind, Option.bind_some]
    by_cases hlast : node.degree = 1
    · rw [if_pos hlast] at htarget ⊢
      rw [htarget, Option.bind_some]
    · rw [if_neg hlast] at htarget ⊢
      obtain rfl := Option.some.inj htarget
      rfl
  have hrows (f : Nat) : ((g.files.set edge.file { node with assigned := true })[f]?).map (·.row) =
      rowAt g f :=
    map_getElem?_set hnode (·.row) hkey f
  have hnumbers (k : Nat) : ((g.slots.set edge.slot target)[k]?).map (·.number) = numberAt g k :=
    map_getElem?_set hslot (·.number) htnumber k
  have hlone : (forcing occ required).lone { s with claims := s.claims ++ [o] } =
      loneElse occ required s o.row := funext fun x => lone_of_claim o x
  rw [hlone]
  refine ⟨h.edges_length, fun e' o' ho' => ?_, fun f node₂ hnode₂ => ?_, fun k slot₂ hslot₂ => ?_,
    unique_set hnode (·.row) hkey h.file_unique, unique_set hslot (·.number) htnumber h.slot_unique,
    fun k => (hnumbers k).trans (h.names_eq k), h.pending, h.missing⟩
  · obtain ⟨edge', hedge', hat'⟩ := h.edge e' o' ho'
    exact ⟨edge', hedge', (hrows _).trans hat'.row, (hnumbers _).trans hat'.number, hat'.live,
      hat'.width⟩
  · rw [getElem?_set_some hnode] at hnode₂
    split_ifs at hnode₂ with hf
    · obtain rfl := Option.some.inj hnode₂
      refine ⟨hfile.edges, ?_, hfile.required, hfile.registry⟩
      rw [taken_of_claim, hkey, hrow]
      simp
    · have hold := h.file _ _ hnode₂
      have hne : node₂.row ≠ o.row := fun heq =>
        hf (h.file_unique _ _ _ _ hnode₂ hnode (heq.trans hrow.symm))
      refine ⟨hold.edges, ?_, hold.required, hold.registry⟩
      rw [taken_of_claim, hold.assigned]
      simp [hne]
  · rw [getElem?_set_some hslot] at hslot₂
    split_ifs at hslot₂ with hk
    · obtain rfl := Option.some.inj hslot₂
      exact ⟨hslot'.edges, hslot'.degree, hslot'.registry⟩
    · have hold := h.slot _ _ hslot₂
      refine ⟨hold.edges, hold.degree, hold.registry.congr fun x hx => ?_⟩
      rw [hold.edges, mem_indexes] at hx
      obtain ⟨y, hy, hyn⟩ := hx
      rw [at_some hy, at_some hy]
      refine loneElse_of_ne (List.mem_of_getElem? hy) (List.mem_of_getElem? ho) hlive ?_
      rintro rfl
      exact hk (h.slot_unique _ _ _ _ hslot₂ hslot
        ((of_decide_eq_true hyn).symm.trans hnumber.symm))

/-- `claim` tracks the claim of the edge, and puts its row at its number. -/
theorem Tracks.claim (hocc : occ.Nodup)
    (h : Tracks occ required names ((forcing occ required).lone s) g s) {e : Nat}
    {o : Occurrence n} (ho : occ[e]? = some o) (hlive : o ∈ s.live)
    (htaken : (forcing occ required).taken s o.row = false) (assignment : VolumeAssignment n) :
    ∃ g', g.claim e assignment = some (g', { assignment with
        slots := insertKey o.number o.row assignment.slots }) ∧
      Tracks occ required names ((forcing occ required).lone ((forcing occ required).claim s o)) g'
        ((forcing occ required).claim s o) := by
  obtain ⟨edge, node, slot, hedge, hat, hnode, hrow, hslot, hnumber⟩ := h.read ho
  have hnodeEdges : node.edges.map (occ[·]?) =
      ((forcing occ required).ofRow o.row).map some := by
    rw [(h.file _ _ hnode).edges, indexes_map, hrow]
    rfl
  have hslotEdges : slot.edges.map (occ[·]?) =
      ((forcing occ required).ofNumber o.number).map some := by
    rw [(h.slot _ _ hslot).edges, indexes_map, hnumber]
    rfl
  obtain ⟨g₁, hg₁, h₁⟩ := h.mark hocc ho hlive htaken
  obtain ⟨g₂, hg₂, h₂⟩ := Tracks.foldlM_remove hocc _ _ hnodeEdges h₁
  obtain ⟨g₃, hg₃, h₃⟩ := Tracks.foldlM_remove hocc _ _ hslotEdges h₂
  refine ⟨g₃, ?_, h₃⟩
  simp only [NumericSolver.claim, hedge, hnode, hslot, hg₁, hg₂, hg₃, Option.bind_eq_bind,
    Option.bind_some, hnumber, hrow]

end Sunpack.Relations.Numeric
