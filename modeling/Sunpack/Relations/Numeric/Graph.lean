import Sunpack.Relations.Numeric.Registers

/-!
# The graph of the domains

`NumericSolver::new` has a result: the edges are the numbers of all domains in order, each file has
those of its domain, each slot those of its number, and the registers are right.
-/

namespace Sunpack.Relations.Numeric

open Lib
open NumericSolver (Building)

variable {n : Nat}

/-- The numbers of a row as occurrences, from an index on. -/
def occurrencesFrom (row : Fin n) (index : Nat) (numbers : List (Nat × Nat)) :
    List (Occurrence n) :=
  (numbers.zipIdx index).map fun p => ⟨row, p.2, p.1.1, p.1.2⟩

def occurrences (domains : List (NumericDomain n)) : List (Occurrence n) :=
  domains.flatMap fun d => occurrencesFrom d.row 0 d.numbers

theorem row_of_mem_occurrencesFrom {row : Fin n} {index : Nat} {numbers : List (Nat × Nat)}
    {o : Occurrence n} (h : o ∈ occurrencesFrom row index numbers) : o.row = row := by
  obtain ⟨p, _, rfl⟩ := List.mem_map.1 h
  rfl

theorem occurrencesFrom_cons (row : Fin n) (index : Nat) (p : Nat × Nat)
    (numbers : List (Nat × Nat)) : occurrencesFrom row index (p :: numbers) =
      ⟨row, index, p.1, p.2⟩ :: occurrencesFrom row (index + 1) numbers := by
  rw [occurrencesFrom, List.zipIdx_cons, List.map_cons]
  rfl

theorem occurrences_concat (domains : List (NumericDomain n)) (d : NumericDomain n) :
    occurrences (domains ++ [d]) = occurrences domains ++ occurrencesFrom d.row 0 d.numbers := by
  rw [occurrences, occurrences, List.flatMap_append, List.flatMap_singleton]

theorem mem_occurrences {domains : List (NumericDomain n)} {o : Occurrence n} :
    o ∈ occurrences domains ↔ ∃ d ∈ domains, o ∈ occurrencesFrom d.row 0 d.numbers :=
  List.mem_flatMap

theorem occurrencesFrom_nodup (row : Fin n) (index : Nat) (numbers : List (Nat × Nat)) :
    (occurrencesFrom row index numbers).Nodup := by
  apply List.Nodup.of_map Occurrence.index
  rw [occurrencesFrom, List.map_map]
  have hindex : (Occurrence.index ∘ fun p : (Nat × Nat) × Nat =>
      (⟨row, p.2, p.1.1, p.1.2⟩ : Occurrence n)) = Prod.snd := rfl
  rw [hindex, List.zipIdx_map_snd]
  exact List.nodup_range'

/-- Distinct rows have distinct occurrences. -/
theorem occurrences_nodup {domains : List (NumericDomain n)}
    (h : (domains.map NumericDomain.row).Nodup) : (occurrences domains).Nodup := by
  rw [occurrences, List.nodup_flatMap]
  refine ⟨fun d _ => occurrencesFrom_nodup _ _ _, ?_⟩
  refine (List.pairwise_map.1 h).imp ?_
  intro d d' hne o ho ho'
  exact hne ((row_of_mem_occurrencesFrom ho).symm.trans (row_of_mem_occurrencesFrom ho'))

/-! ## Slots -/

/-- A slot while the graph is built; `single` are the edges of its registry. -/
structure SlotOf (acc : List (Occurrence n)) (single : Nat → Bool) (slot : SlotNode) : Prop where
  edges : slot.edges = indexes acc (·.number = slot.number)
  degree : slot.degree = slot.edges.length
  registry : Registry single slot.edges slot.singleFiles slot.singleRemaining

/-- The slots while the graph is built: those of the numbers of the occurrences so far. -/
structure SlotsAt (acc : List (Occurrence n)) (single : Nat → Bool) (slots : List SlotNode)
    (byNumber : List (Nat × Nat)) : Prop where
  slot : ∀ (k : Nat) (slot : SlotNode), slots[k]? = some slot → SlotOf acc single slot
  index : ∀ m k, byNumber.lookup m = some k ↔ (slots[k]?).map (·.number) = some m
  covers : ∀ o ∈ acc, (byNumber.lookup o.number).isSome
  sorted : byNumber.Pairwise fun a b => a.1 < b.1

variable {acc : List (Occurrence n)} {single : Nat → Bool} {slots : List SlotNode}
  {byNumber : List (Nat × Nat)}

theorem SlotsAt.unique (h : SlotsAt acc single slots byNumber) (k k' : Nat) (a a' : SlotNode)
    (ha : slots[k]? = some a) (ha' : slots[k']? = some a') (heq : a.number = a'.number) :
    k = k' := by
  have hk := (h.index a.number k).2 (by rw [ha, Option.map_some])
  have hk' := (h.index a'.number k').2 (by rw [ha', Option.map_some])
  rw [heq, hk'] at hk
  exact (Option.some.inj hk).symm

/-- `entry(number).or_insert_with`. -/
theorem SlotsAt.ensure (h : SlotsAt acc single slots byNumber) (m : Nat) :
    let known := (byNumber.lookup m).isSome
    let k := (byNumber.lookup m).getD slots.length
    let slots' := if known then slots else slots ++ [{ number := m }]
    let byNumber' := if known then byNumber else insertKey m k byNumber
    SlotsAt acc single slots' byNumber' ∧ byNumber'.lookup m = some k ∧
      (∀ j, j < slots.length → slots'[j]? = slots[j]?) ∧
      ∀ m', (byNumber'.lookup m').isSome → m' = m ∨ (byNumber.lookup m').isSome := by
  intro known k slots' byNumber'
  cases hm : byNumber.lookup m with
  | some j =>
    have hknown : known = true := by simp [known, hm]
    have hslots : slots' = slots := if_pos hknown
    have hby : byNumber' = byNumber := if_pos hknown
    have hk : k = j := by simp [k, hm]
    rw [hslots, hby, hk]
    exact ⟨h, hm, fun _ _ => rfl, fun m' hm' => Or.inr hm'⟩
  | none =>
    have hknown : ¬ known = true := by simp [known, hm]
    have hk : k = slots.length := by simp [k, hm]
    have hslots : slots' = slots ++ [{ number := m }] := if_neg hknown
    have hby : byNumber' = insertKey m slots.length byNumber := by
      rw [← hk]
      exact if_neg hknown
    have hold : ∀ j, j < slots.length → slots'[j]? = slots[j]? := by
      intro j hj
      rw [hslots, List.getElem?_append_left hj]
    have hlast : slots'[slots.length]? = some { number := m } := by
      rw [hslots]
      simp
    have hlt {j : Nat} {a : SlotNode} (ha : slots[j]? = some a) : j < slots.length :=
      (List.getElem?_eq_some_iff.1 ha).1
    have hcases {j : Nat} {a : SlotNode} (ha : slots'[j]? = some a) :
        slots[j]? = some a ∨ j = slots.length ∧ a = { number := m } := by
      rcases Nat.lt_trichotomy j slots.length with hj | rfl | hj
      · exact Or.inl (hold j hj ▸ ha)
      · exact Or.inr ⟨rfl, Option.some.inj (ha.symm.trans hlast)⟩
      · rw [hslots, List.getElem?_eq_none (by rw [List.length_append, List.length_singleton]; omega)]
          at ha
        exact absurd ha (by simp)
    refine ⟨⟨fun j a ha => ?_, fun m' j => ?_, fun o ho => ?_, ?_⟩, ?_, hold, fun m' hm' => ?_⟩
    · rcases hcases ha with ha | ⟨_, rfl⟩
      · exact h.slot j a ha
      · have hnone : indexes acc (·.number = m) = [] := by
          rw [List.eq_nil_iff_forall_not_mem]
          intro e he
          obtain ⟨o, ho, hnumber⟩ := mem_indexes.1 he
          have hcover := h.covers o (List.mem_of_getElem? ho)
          rw [of_decide_eq_true hnumber, hm] at hcover
          exact absurd hcover (by simp)
        exact ⟨hnone.symm, rfl, Registry.nil single⟩
    · rw [hby, lookup_insertKey]
      by_cases hmm : m' = m
      · subst hmm
        rw [if_pos rfl]
        constructor
        · intro heq
          obtain rfl := Option.some.inj heq
          rw [hlast, Option.map_some]
        · intro heq
          obtain ⟨a, ha, hnumber⟩ := Option.map_eq_some_iff.1 heq
          rcases hcases ha with ha | ⟨rfl, _⟩
          · have hfound := (h.index a.number j).2 (by rw [ha, Option.map_some])
            rw [hnumber, hm] at hfound
            exact absurd hfound (by simp)
          · rfl
      · rw [if_neg hmm, h.index m' j]
        constructor
        · intro heq
          obtain ⟨a, ha, hnumber⟩ := Option.map_eq_some_iff.1 heq
          rw [hold j (hlt ha), ha, Option.map_some, hnumber]
        · intro heq
          obtain ⟨a, ha, hnumber⟩ := Option.map_eq_some_iff.1 heq
          rcases hcases ha with ha | ⟨_, rfl⟩
          · rw [ha, Option.map_some, hnumber]
          · exact absurd hnumber.symm hmm
    · rw [hby, lookup_insertKey]
      split_ifs
      · rfl
      · exact h.covers o ho
    · rw [hby]
      exact insertKey_sorted h.sorted
    · rw [hby, lookup_insertKey, if_pos rfl, hk]
    · rw [hby, lookup_insertKey] at hm'
      split_ifs at hm' with heq
      · exact Or.inl heq
      · exact Or.inr hm'

/-- A slot is replaced by one of the same number. -/
theorem SlotsAt.set {acc' : List (Occurrence n)} {single' : Nat → Bool}
    (h : SlotsAt acc single slots byNumber) {k : Nat} {target target' : SlotNode}
    (htarget : slots[k]? = some target) (hnumber : target'.number = target.number)
    (hat : SlotOf acc' single' target')
    (hother : ∀ (j : Nat) (a : SlotNode), slots[j]? = some a → a.number ≠ target.number →
      SlotOf acc' single' a)
    (hcovers : ∀ o ∈ acc', (byNumber.lookup o.number).isSome) :
    SlotsAt acc' single' (slots.set k target') byNumber := by
  have hlt := (List.getElem?_eq_some_iff.1 htarget).1
  refine ⟨fun j a ha => ?_, fun m j => ?_, hcovers, h.sorted⟩
  · by_cases hj : j = k
    · subst hj
      rw [List.getElem?_set_self hlt] at ha
      rw [← Option.some.inj ha]
      exact hat
    · rw [List.getElem?_set_ne (Ne.symm hj)] at ha
      exact hother j a ha fun heq => hj (h.unique j k a target ha htarget heq)
  · rw [h.index]
    by_cases hj : j = k
    · subst hj
      rw [List.getElem?_set_self hlt, htarget, Option.map_some, Option.map_some, hnumber]
    · rw [List.getElem?_set_ne (Ne.symm hj)]

/-- A new edge of a slot. -/
theorem SlotsAt.addEdge (h : SlotsAt acc single slots byNumber) {k : Nat} {target : SlotNode}
    (htarget : slots[k]? = some target) {o : Occurrence n} (hnumber : target.number = o.number)
    (hsingle : single acc.length = false) :
    SlotsAt (acc ++ [o]) single
      (slots.set k { target with
        edges := target.edges ++ [acc.length]
        degree := target.degree + 1 }) byNumber := by
  refine h.set htarget ?_ ?_ ?_ ?_
  · rfl
  · obtain ⟨hedges, hdegree, hregistry⟩ := h.slot k target htarget
    refine ⟨?_, ?_, hregistry.append_not hsingle⟩
    · rw [indexes_concat, hedges, if_pos (by simp [hnumber])]
    · dsimp only
      rw [hdegree, List.length_append, List.length_singleton]
  · intro j a ha hne
    obtain ⟨hedges, hdegree, hregistry⟩ := h.slot j a ha
    have hnot : ¬ decide (o.number = a.number) = true := by
      rw [decide_eq_true_eq, ← hnumber]
      exact Ne.symm hne
    refine ⟨?_, hdegree, hregistry⟩
    rw [indexes_concat, if_neg hnot, List.append_nil, hedges]
  · intro x hx
    rcases List.mem_append.1 hx with hx | hx
    · exact h.covers x hx
    · rw [List.mem_singleton.1 hx, (h.index o.number k).2 (by rw [htarget, Option.map_some, hnumber])]
      rfl

theorem SlotOf.mem_lt {slot : SlotNode} (h : SlotOf acc single slot) {e : Nat}
    (he : e ∈ slot.edges) : e < acc.length := by
  rw [h.edges] at he
  obtain ⟨o, ho, _⟩ := mem_indexes.1 he
  exact (List.getElem?_eq_some_iff.1 ho).1

theorem SlotsAt.congr {single' : Nat → Bool} (h : SlotsAt acc single slots byNumber)
    (hsame : ∀ e, e < acc.length → single' e = single e) :
    SlotsAt acc single' slots byNumber := by
  refine ⟨fun k slot hslot => ?_, h.index, h.covers, h.sorted⟩
  have hat := h.slot k slot hslot
  exact ⟨hat.edges, hat.degree, hat.registry.congr fun e he => hsame e (hat.mem_lt he)⟩

/-- One more single file. -/
theorem SlotsAt.join {single' : Nat → Bool} (h : SlotsAt acc single slots byNumber) {k e : Nat}
    {target : SlotNode} (htarget : slots[k]? = some target) {o : Occurrence n}
    (ho : acc[e]? = some o) (hnumber : target.number = o.number) (hold : single e = false)
    (hnew : single' e = true) (hsame : ∀ x, x < acc.length → x ≠ e → single' x = single x) :
    SlotsAt acc single' (slots.set k (target.join e)) byNumber := by
  refine h.set htarget rfl ?_ ?_ h.covers
  · have hat := h.slot k target htarget
    have hmem : e ∈ target.edges := by
      rw [hat.edges]
      exact mem_indexes.2 ⟨o, ho, by simp [hnumber]⟩
    refine ⟨hat.edges, hat.degree, ?_⟩
    exact hat.registry.add (hat.edges ▸ indexes_nodup _) hmem hold hnew
      fun x hx hne => hsame x (hat.mem_lt hx) hne
  · intro j a ha hne
    have hat := h.slot j a ha
    refine ⟨hat.edges, hat.degree, hat.registry.congr fun x hx => hsame x (hat.mem_lt hx) ?_⟩
    rintro rfl
    rw [hat.edges, mem_indexes] at hx
    obtain ⟨y, hy, hp⟩ := hx
    obtain rfl := Option.some.inj (ho.symm.trans hy)
    exact hne ((of_decide_eq_true hp).symm.trans hnumber.symm)

/-! ## Edges -/

/-- The edges while the graph is built. -/
structure EdgesAt (acc : List (Occurrence n)) (rows : List (Fin n)) (slots : List SlotNode)
    (edges : List Edge) : Prop where
  length : edges.length = acc.length
  edge : ∀ (e : Nat) (o : Occurrence n), acc[e]? = some o → ∃ edge, edges[e]? = some edge ∧
    rows[edge.file]? = some o.row ∧ (slots[edge.slot]?).map (·.number) = some o.number ∧
    edge.live = true ∧ edge.width = o.width

/-- The graph and the node of the row that is added. -/
structure Adding (acc : List (Occurrence n)) (rows : List (Fin n)) (single : Nat → Bool)
    (start : Building n) (startNode : FileNode n) (x : Building n × FileNode n) : Prop where
  edges : EdgesAt acc rows x.1.graph.slots x.1.graph.edges
  slots : SlotsAt acc single x.1.graph.slots x.1.byNumber
  used : ∀ m, (x.1.byNumber.lookup m).isSome → ∃ o ∈ acc, o.number = m
  files : x.1.graph.files = start.graph.files
  missing : x.1.graph.missing = start.graph.missing
  pending : x.1.graph.pending = start.graph.pending
  node : x.2 = { startNode with
    edges := indexes acc (·.row = startNode.row)
    remaining := xorAll (indexes acc (·.row = startNode.row)) }

theorem xorAll_concat (l : List Nat) (e : Nat) : xorAll (l ++ [e]) = xorAll l ^^^ e := by
  rw [xorAll_perm List.perm_append_comm, List.singleton_append, Nat.xor_comm]
  rfl

theorem Adding.addNumber {rows : List (Fin n)} {start : Building n} {startNode : FileNode n}
    {x : Building n × FileNode n} (h : Adding acc rows single start startNode x) {file : Nat}
    (hfile : rows[file]? = some startNode.row) (hsingle : single acc.length = false)
    (p : Nat × Nat) (index : Nat) :
    ∃ y, NumericSolver.addNumber file x p = some y ∧
      Adding (acc ++ [⟨startNode.row, index, p.1, p.2⟩]) rows single start startNode y := by
  obtain ⟨hslots, hlookup, hold, hused⟩ := h.slots.ensure p.1
  obtain ⟨target, htarget, hnumber⟩ := Option.map_eq_some_iff.1 ((hslots.index _ _).1 hlookup)
  have hadd := hslots.addEdge (o := ⟨startNode.row, index, p.1, p.2⟩) htarget hnumber hsingle
  have hlen := h.edges.length
  simp only [NumericSolver.addNumber, htarget, Option.bind_eq_bind, Option.bind_some]
  refine ⟨_, rfl, ?_, ?_, fun m hm => ?_, h.files, h.missing, h.pending, ?_⟩
  · refine ⟨by dsimp only; rw [List.length_append, List.length_append, hlen]; rfl, ?_⟩
    intro e o ho
    dsimp only
    have hkeep : ∀ (j m : Nat), (x.1.graph.slots[j]?).map SlotNode.number = some m →
        ((List.set (if (x.1.byNumber.lookup p.1).isSome then x.1.graph.slots
          else x.1.graph.slots ++ [{ number := p.1 }])
          ((x.1.byNumber.lookup p.1).getD x.1.graph.slots.length)
          { target with
            edges := target.edges ++ [x.1.graph.edges.length]
            degree := target.degree + 1 })[j]?).map SlotNode.number = some m := by
      intro j m hj
      obtain ⟨a, ha, hm⟩ := Option.map_eq_some_iff.1 hj
      have hj' := hold j (List.getElem?_eq_some_iff.1 ha).1
      by_cases hjk : j = (x.1.byNumber.lookup p.1).getD x.1.graph.slots.length
      · subst hjk
        rw [List.getElem?_set_self (List.getElem?_eq_some_iff.1 htarget).1, Option.map_some]
        rw [hj', ha] at htarget
        rw [← Option.some.inj htarget, hm]
      · rw [List.getElem?_set_ne (Ne.symm hjk), hj', ha, Option.map_some, hm]
    rcases Nat.lt_or_ge e acc.length with he | he
    · rw [List.getElem?_append_left he] at ho
      obtain ⟨edge, hedge, hrow, hnum, hlive, hwidth⟩ := h.edges.edge e o ho
      refine ⟨edge, ?_, hrow, hkeep _ _ hnum, hlive, hwidth⟩
      rw [List.getElem?_append_left (by omega)]
      exact hedge
    · have hee : e = acc.length := by
        have hlt := (List.getElem?_eq_some_iff.1 ho).1
        rw [List.length_append, List.length_singleton] at hlt
        omega
      subst hee
      rw [List.getElem?_concat_length] at ho
      obtain rfl := Option.some.inj ho
      refine ⟨_, by rw [← hlen, List.getElem?_concat_length], hfile, ?_, rfl, rfl⟩
      dsimp only
      rw [List.getElem?_set_self (List.getElem?_eq_some_iff.1 htarget).1, Option.map_some, hnumber]
  · rw [← hlen] at hadd
    exact hadd
  · rcases hused m hm with rfl | hold'
    · exact ⟨_, List.mem_append_right _ (List.mem_singleton_self _), rfl⟩
    · obtain ⟨o, ho, hom⟩ := h.used m hold'
      exact ⟨o, List.mem_append_left _ ho, hom⟩
  · dsimp only
    rw [h.node, hlen, indexes_concat, if_pos (by simp), xorAll_concat]

theorem Adding.foldlM {rows : List (Fin n)} {start : Building n} {startNode : FileNode n}
    (numbers : List (Nat × Nat)) (index : Nat) {x : Building n × FileNode n}
    {acc : List (Occurrence n)} (h : Adding acc rows single start startNode x) {file : Nat}
    (hfile : rows[file]? = some startNode.row) (hsingle : ∀ e, acc.length ≤ e → single e = false) :
    ∃ y, numbers.foldlM (NumericSolver.addNumber file) x = some y ∧
      Adding (acc ++ occurrencesFrom startNode.row index numbers) rows single start startNode y := by
  induction numbers generalizing index x acc with
  | nil =>
    rw [occurrencesFrom, List.zipIdx_nil, List.map_nil, List.append_nil]
    exact ⟨x, rfl, h⟩
  | cons p numbers ih =>
    obtain ⟨y, hy, hadding⟩ := h.addNumber hfile (hsingle _ (Nat.le_refl _)) p index
    obtain ⟨z, hz, hrest⟩ := ih (index + 1) hadding fun e he => hsingle e (by
      rw [List.length_append, List.length_singleton] at he
      omega)
    refine ⟨z, by rw [List.foldlM_cons, hy, Option.bind_eq_bind, Option.bind_some, hz], ?_⟩
    rw [occurrencesFrom_cons, ← List.singleton_append, ← List.append_assoc]
    exact hrest

/-! ## Domains -/

/-- The node of a domain. -/
def fileNode (occ : List (Occurrence n)) (d : NumericDomain n) : FileNode n where
  row := d.row
  required := d.required
  edges := indexes occ (·.row = d.row)
  degree := d.numbers.length
  remaining := xorAll (indexes occ (·.row = d.row))

/-- The number is the only one of its row. -/
def loneAll (occ : List (Occurrence n)) (o : Occurrence n) : Bool :=
  (occ.filter (·.row = o.row)).length == 1

/-- The graph of some domains. -/
structure Built (done : List (NumericDomain n)) (b : Building n) : Prop where
  edges : EdgesAt (occurrences done) (done.map NumericDomain.row) b.graph.slots b.graph.edges
  slots : SlotsAt (occurrences done) (at_ (occurrences done) (loneAll (occurrences done)))
    b.graph.slots b.byNumber
  used : ∀ m, (b.byNumber.lookup m).isSome → ∃ o ∈ occurrences done, o.number = m
  files : b.graph.files = done.map (fileNode (occurrences done))
  missing : b.graph.missing = done.any fun d => d.numbers.length == 0 && d.required
  pending : b.graph.pending = []

theorem filter_occurrences {done : List (NumericDomain n)} {d : NumericDomain n}
    (hrow : d.row ∉ done.map NumericDomain.row) :
    (occurrences done).filter (·.row = d.row) = [] := by
  rw [List.filter_eq_nil_iff]
  intro o ho heq
  obtain ⟨d', hd', hmem⟩ := mem_occurrences.1 ho
  apply hrow
  rw [← of_decide_eq_true heq, row_of_mem_occurrencesFrom hmem]
  exact List.mem_map_of_mem hd'

theorem filter_occurrencesFrom (row : Fin n) (index : Nat) (numbers : List (Nat × Nat)) (r : Fin n) :
    (occurrencesFrom row index numbers).filter (·.row = r) =
      if row = r then occurrencesFrom row index numbers else [] := by
  split_ifs with hr
  · rw [List.filter_eq_self]
    intro o ho
    simp [row_of_mem_occurrencesFrom ho, hr]
  · rw [List.filter_eq_nil_iff]
    intro o ho
    simp [row_of_mem_occurrencesFrom ho, hr]

theorem length_occurrencesFrom (row : Fin n) (index : Nat) (numbers : List (Nat × Nat)) :
    (occurrencesFrom row index numbers).length = numbers.length := by
  rw [occurrencesFrom, List.length_map, List.length_zipIdx]

/-- Occurrences of other rows come without new places. -/
theorem indexes_append_other {acc l : List (Occurrence n)} {p : Occurrence n → Bool}
    (h : ∀ o ∈ l, p o = false) : indexes (acc ++ l) p = indexes acc p := by
  induction l using List.reverseRecOn with
  | nil => rw [List.append_nil]
  | append_singleton l o ih =>
    rw [← List.append_assoc, indexes_concat, ih fun x hx => h x (List.mem_append_left _ hx),
      if_neg (by simp [h o (by simp)]), List.append_nil]

theorem fileNode_append {done : List (NumericDomain n)} {d : NumericDomain n}
    (hrow : d.row ∉ done.map NumericDomain.row) :
    done.map (fileNode (occurrences (done ++ [d]))) = done.map (fileNode (occurrences done)) := by
  apply List.map_congr_left
  intro d' hd'
  have hne : d.row ≠ d'.row := fun heq => hrow (heq ▸ List.mem_map_of_mem hd')
  have hindexes : indexes (occurrences (done ++ [d])) (·.row = d'.row) =
      indexes (occurrences done) (·.row = d'.row) := by
    rw [occurrences_concat]
    apply indexes_append_other
    intro o ho
    simp [row_of_mem_occurrencesFrom ho, hne]
  rw [fileNode, fileNode, hindexes]

/-- Whether an edge is the only one of its row, once a domain is added. -/
theorem loneAll_append {done : List (NumericDomain n)} {d : NumericDomain n}
    (hrow : d.row ∉ done.map NumericDomain.row) {o : Occurrence n}
    (ho : o ∈ occurrences (done ++ [d])) :
    loneAll (occurrences (done ++ [d])) o =
      if o ∈ occurrences done then loneAll (occurrences done) o else d.numbers.length == 1 := by
  have hnot : ∀ x ∈ occurrences done, x.row ≠ d.row := by
    intro x hx heq
    obtain ⟨d', hd', hmem⟩ := mem_occurrences.1 hx
    exact hrow (heq ▸ row_of_mem_occurrencesFrom hmem ▸ List.mem_map_of_mem hd')
  rw [occurrences_concat] at ho
  rw [loneAll, occurrences_concat, List.filter_append, filter_occurrencesFrom]
  split_ifs with hr hmem hmem
  · exact absurd hr.symm (hnot o hmem)
  · rw [← hr, filter_occurrences hrow, List.nil_append, length_occurrencesFrom]
  · rw [List.append_nil]
    rfl
  · exact absurd (row_of_mem_occurrencesFrom ((List.mem_append.1 ho).resolve_left hmem)).symm hr

/-- The places of the edges that are the only one of their row, once a domain is added. -/
theorem at_loneAll_append {done : List (NumericDomain n)} {d : NumericDomain n}
    (hrow : d.row ∉ done.map NumericDomain.row) {e : Nat}
    (he : e < (occurrences (done ++ [d])).length) :
    at_ (occurrences (done ++ [d])) (loneAll (occurrences (done ++ [d]))) e =
      if e < (occurrences done).length then at_ (occurrences done) (loneAll (occurrences done)) e
      else d.numbers.length == 1 := by
  have hget := List.getElem?_eq_getElem he
  have hmem := List.getElem_mem he
  generalize (occurrences (done ++ [d]))[e] = o at hget hmem
  rw [at_some hget, loneAll_append hrow hmem]
  rw [occurrences_concat] at hget
  split_ifs with hold hlt hlt
  · rw [List.getElem?_append_left hlt] at hget
    rw [at_some hget]
  · exfalso
    rw [List.getElem?_append_right (Nat.le_of_not_lt hlt)] at hget
    obtain ⟨d', hd', ho'⟩ := mem_occurrences.1 hold
    apply hrow
    rw [← row_of_mem_occurrencesFrom (List.mem_of_getElem? hget), row_of_mem_occurrencesFrom ho']
    exact List.mem_map_of_mem hd'
  · rw [List.getElem?_append_left hlt] at hget
    exact absurd (List.mem_of_getElem? hget) hold
  · rfl

theorem EdgesAt.append_rows {acc : List (Occurrence n)} {rows : List (Fin n)}
    {slots : List SlotNode} {edges : List Edge} (h : EdgesAt acc rows slots edges) (r : Fin n) :
    EdgesAt acc (rows ++ [r]) slots edges := by
  refine ⟨h.length, fun e o ho => ?_⟩
  obtain ⟨edge, hedge, hrow, hrest⟩ := h.edge e o ho
  refine ⟨edge, hedge, ?_, hrest⟩
  rw [List.getElem?_append_left (List.getElem?_eq_some_iff.1 hrow).1, hrow]

/-- The numbers of the slots are as before. -/
theorem EdgesAt.of_numbers {acc : List (Occurrence n)} {rows : List (Fin n)}
    {slots slots' : List SlotNode} {edges : List Edge} (h : EdgesAt acc rows slots edges)
    (hnumbers : ∀ j : Nat, (slots'[j]?).map SlotNode.number = (slots[j]?).map SlotNode.number) :
    EdgesAt acc rows slots' edges := by
  refine ⟨h.length, fun e o ho => ?_⟩
  obtain ⟨edge, hedge, hrow, hnumber, hrest⟩ := h.edge e o ho
  exact ⟨edge, hedge, hrow, (hnumbers edge.slot).trans hnumber, hrest⟩

theorem Built.addDomain {done : List (NumericDomain n)} {b : Building n} (h : Built done b)
    {d : NumericDomain n} (hrow : d.row ∉ done.map NumericDomain.row) :
    ∃ b', NumericSolver.addDomain b d = some b' ∧ Built (done ++ [d]) b' := by
  have hfile : (done.map NumericDomain.row ++ [d.row])[b.graph.files.length]? = some d.row := by
    have hlast : (done.map NumericDomain.row).length = done.length := List.length_map _
    rw [h.files, List.length_map, ← hlast, List.getElem?_concat_length]
  have hnone : indexes (occurrences done) (·.row = d.row) = [] := by
    rw [← List.length_eq_zero_iff, length_indexes, filter_occurrences hrow, List.length_nil]
  have hstart : Adding (occurrences done) (done.map NumericDomain.row ++ [d.row])
      (at_ (occurrences done) (loneAll (occurrences done))) b
      { row := d.row, required := d.required, degree := d.numbers.length }
      (b, { row := d.row, required := d.required, degree := d.numbers.length }) := by
    refine ⟨h.edges.append_rows d.row, h.slots, h.used, rfl, rfl, rfl, ?_⟩
    dsimp only
    rw [hnone]
    rfl
  obtain ⟨y, hy, hadded⟩ := hstart.foldlM d.numbers 0 hfile fun e he => by
    rw [at_, List.getElem?_eq_none he, Option.any_none]
  rw [← occurrences_concat] at hadded
  have hnode : y.2 = fileNode (occurrences (done ++ [d])) d := hadded.node
  have hfiles : y.1.graph.files ++ [y.2] =
      (done ++ [d]).map (fileNode (occurrences (done ++ [d]))) := by
    rw [hadded.files, h.files, hnode, List.map_append, fileNode_append hrow, List.map_singleton]
  have hrows : (done ++ [d]).map NumericDomain.row = done.map NumericDomain.row ++ [d.row] := by
    rw [List.map_append, List.map_singleton]
  have hlen : (occurrences (done ++ [d])).length =
      (occurrences done).length + d.numbers.length := by
    rw [occurrences_concat, List.length_append, length_occurrencesFrom]
  have hmissing : (done ++ [d]).any (fun d => d.numbers.length == 0 && d.required) =
      (y.1.graph.missing || (d.numbers.length == 0 && d.required)) := by
    rw [List.any_append, hadded.missing, h.missing, List.any_cons, List.any_nil, Bool.or_false]
  simp only [NumericSolver.addDomain, hy, Option.bind_eq_bind, Option.bind_some]
  have hdegree : y.2.degree = d.numbers.length := by rw [hnode, fileNode]
  by_cases hone : y.2.degree = 1
  · rw [if_pos hone]
    rw [hdegree] at hone
    have hlast : (occurrences done).length < (occurrences (done ++ [d])).length := by omega
    have hremaining : y.2.remaining = (occurrences done).length := by
      obtain ⟨p, hp⟩ := List.length_eq_one_iff.1 hone
      rw [hnode, fileNode, occurrences_concat, hp, occurrencesFrom_cons]
      dsimp only
      rw [show occurrencesFrom d.row (0 + 1) [] = [] from rfl, indexes_concat, hnone,
        if_pos (by simp), List.nil_append, xorAll, List.foldr_cons, List.foldr_nil, Nat.xor_zero]
    obtain ⟨edge, hedge, _, hnumber, _⟩ := hadded.edges.edge _ _ (List.getElem?_eq_getElem hlast)
    obtain ⟨target, htarget, hnumber⟩ := Option.map_eq_some_iff.1 hnumber
    rw [hremaining]
    simp only [hedge, htarget, Option.bind_some]
    refine ⟨_, rfl, ?_, ?_, hadded.used, hfiles, ?_, hadded.pending.trans h.pending⟩
    · rw [hrows]
      apply hadded.edges.of_numbers
      intro j
      dsimp only
      by_cases hj : j = edge.slot
      · subst hj
        rw [List.getElem?_set_self (List.getElem?_eq_some_iff.1 htarget).1, htarget,
          Option.map_some, Option.map_some, SlotNode.join]
      · rw [List.getElem?_set_ne (Ne.symm hj)]
    · apply hadded.slots.join htarget (List.getElem?_eq_getElem hlast) hnumber
      · rw [at_, List.getElem?_eq_none (Nat.le_refl _), Option.any_none]
      · rw [at_loneAll_append hrow hlast, if_neg (Nat.lt_irrefl _), hone]
        rfl
      · intro x hx hne
        rw [at_loneAll_append hrow hx, if_pos (by omega)]
    · dsimp only
      rw [hmissing, hone]
      simp
  · rw [if_neg hone]
    rw [hdegree] at hone
    refine ⟨_, rfl, ?_, ?_, hadded.used, hfiles, ?_, hadded.pending.trans h.pending⟩
    · rw [hrows]
      exact hadded.edges
    · apply hadded.slots.congr
      intro x hx
      rw [at_loneAll_append hrow hx]
      split_ifs with hlt
      · rfl
      · rw [at_, List.getElem?_eq_none (Nat.le_of_not_lt hlt), Option.any_none]
        simpa using hone
    · dsimp only
      rw [hmissing, hnode, fileNode]

/-- The graph of all domains. -/
theorem Built.foldlM (domains : List (NumericDomain n)) {done : List (NumericDomain n)}
    {b : Building n} (h : Built done b)
    (hrows : ((done ++ domains).map NumericDomain.row).Nodup) :
    ∃ b', domains.foldlM NumericSolver.addDomain b = some b' ∧ Built (done ++ domains) b' := by
  induction domains generalizing done b with
  | nil =>
    rw [List.append_nil]
    exact ⟨b, rfl, h⟩
  | cons d domains ih =>
    rw [← List.singleton_append, ← List.append_assoc] at hrows ⊢
    have hnew : d.row ∉ done.map NumericDomain.row := by
      rw [List.map_append, List.map_append] at hrows
      have hdisjoint := (List.nodup_append.1 (List.nodup_append.1 hrows).1).2.2
      intro hmem
      exact hdisjoint d.row hmem d.row (by simp) rfl
    obtain ⟨b₁, hb₁, hbuilt⟩ := h.addDomain hnew
    obtain ⟨b₂, hb₂, hrest⟩ := ih hbuilt hrows
    exact ⟨b₂, by rw [List.singleton_append, List.foldlM_cons, hb₁, Option.bind_eq_bind,
      Option.bind_some, hb₂], hrest⟩

theorem Built.nil : Built ([] : List (NumericDomain n)) {} where
  edges := ⟨rfl, fun e o ho => absurd ho (by simp [occurrences])⟩
  slots := ⟨fun k slot hslot => absurd hslot (by simp), fun m k => by simp,
    fun o ho => absurd ho (by simp [occurrences]), List.Pairwise.nil⟩
  used m hm := absurd hm (by simp)
  files := rfl
  missing := rfl
  pending := rfl

end Sunpack.Relations.Numeric
