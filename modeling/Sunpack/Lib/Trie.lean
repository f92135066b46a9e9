import Mathlib.Data.List.Infix
import Sunpack.Lib.Dict

/-!
# Tries

Values under paths of components, with the components of a path shared between its extensions.
Erasing prunes the nodes that became empty, so in a pruned trie a node is there exactly when
something is stored at or below it.
-/

namespace Sunpack.Lib

universe u v

inductive Trie (κ : Type u) (α : Type v) : Type (max u v)
  | node (value : Option α) (children : List (κ × Trie κ α))

namespace Trie

variable {κ : Type u} {α : Type v}

def empty : Trie κ α := .node none []

def value : Trie κ α → Option α
  | .node v _ => v

def children : Trie κ α → List (κ × Trie κ α)
  | .node _ cs => cs

def isEmpty : Trie κ α → Bool
  | .node v cs => v.isNone && cs.isEmpty

variable [DecidableEq κ]

/-- The node at a path. -/
def sub : List κ → Trie κ α → Option (Trie κ α)
  | [], t => some t
  | k :: ks, t => (Dict.find k t.children).bind (sub ks)

def get (ks : List κ) (t : Trie κ α) : Option α := (sub ks t).bind value

def insert (a : α) : List κ → Trie κ α → Trie κ α
  | [], .node _ cs => .node (some a) cs
  | k :: ks, .node v cs => .node v (Dict.put k (insert a ks ((Dict.find k cs).getD empty)) cs)

def erase : List κ → Trie κ α → Trie κ α
  | [], .node _ cs => .node none cs
  | k :: ks, .node v cs =>
    match Dict.find k cs with
    | none => .node v cs
    | some t =>
      let t := erase ks t
      if t.isEmpty then .node v (Dict.drop k cs) else .node v (Dict.put k t cs)

/-- The trie with the node at a path changed; nodes that became empty on the way are taken out. -/
def alter (f : Trie κ α → Trie κ α) : List κ → Trie κ α → Trie κ α
  | [], t => f t
  | k :: ks, .node v cs =>
    match Dict.find k cs with
    | none => .node v cs
    | some t =>
      let t := alter f ks t
      if t.isEmpty then .node v (Dict.drop k cs) else .node v (Dict.put k t cs)

/-- The trie without what is at or below a path. -/
def cut (ks : List κ) (t : Trie κ α) : Trie κ α := t.alter (fun _ => empty) ks

/-- The values on the way down a path, the root's own left out. -/
def along : List κ → Trie κ α → List α
  | [], _ => []
  | k :: ks, t =>
    match Dict.find k t.children with
    | none => []
    | some t => t.value.toList ++ along ks t

def hasUnder (ks : List κ) (t : Trie κ α) : Bool := (sub ks t).any fun t => !t.isEmpty

/-! ## Entries -/

@[simp] theorem get_nil (t : Trie κ α) : get [] t = t.value := rfl

theorem get_cons (k : κ) (ks : List κ) (t : Trie κ α) :
    get (k :: ks) t = (Dict.find k t.children).bind (get ks) := by
  rw [get, sub]
  cases Dict.find k t.children <;> rfl

theorem get_empty (ks : List κ) : get ks (empty : Trie κ α) = none := by
  cases ks with
  | nil => rfl
  | cons k ks => rw [get_cons]; rfl

theorem get_append (ks ks' : List κ) (t : Trie κ α) :
    get (ks ++ ks') t = (sub ks t).bind (get ks') := by
  induction ks generalizing t with
  | nil => rfl
  | cons k ks ih =>
    rw [List.cons_append, get_cons, sub]
    cases hfind : Dict.find k t.children with
    | none => rfl
    | some t => simp only [Option.bind_some, ih]

theorem get_insert (a : α) (ks ks' : List κ) (t : Trie κ α) :
    get ks' (insert a ks t) = if ks' = ks then some a else get ks' t := by
  induction ks generalizing ks' t with
  | nil =>
    obtain ⟨v, cs⟩ := t
    cases ks' with
    | nil => rfl
    | cons k' ks' => rw [if_neg (List.cons_ne_nil _ _), get_cons, get_cons]; rfl
  | cons k ks ih =>
    obtain ⟨v, cs⟩ := t
    cases ks' with
    | nil => rfl
    | cons k' ks' =>
      rw [insert, get_cons, get_cons]
      show (Dict.find k' (Dict.put k _ cs)).bind (get ks') =
        if k' :: ks' = k :: ks then some a else (Dict.find k' cs).bind (get ks')
      rw [Dict.find_put]
      by_cases hk : k' = k
      · subst hk
        rw [if_pos rfl, Option.bind_some, ih]
        cases hfind : Dict.find k' cs with
        | none => simp [get_empty]
        | some t => simp
      · rw [if_neg hk, if_neg]
        intro heq
        exact hk (List.cons.inj heq).1

/-- What is met on the way down a path is stored at the prefixes of the path. -/
theorem mem_along {ks : List κ} {t : Trie κ α} {a : α} :
    a ∈ along ks t ↔ ∃ p, p ≠ [] ∧ p <+: ks ∧ get p t = some a := by
  induction ks generalizing t with
  | nil =>
    rw [along]
    constructor
    · intro h
      exact absurd h List.not_mem_nil
    · rintro ⟨p, hne, hp, _⟩
      exact absurd (List.prefix_nil.1 hp) hne
  | cons k ks ih =>
    rw [along]
    constructor
    · intro h
      split at h
      · exact absurd h List.not_mem_nil
      rename_i t' hfind
      rcases List.mem_append.1 h with h | h
      · refine ⟨[k], List.cons_ne_nil _ _, ⟨ks, rfl⟩, ?_⟩
        rw [get_cons, hfind, Option.bind_some, get_nil]
        exact Option.mem_toList.1 h
      · obtain ⟨p, _, hp, hget⟩ := ih.1 h
        refine ⟨k :: p, List.cons_ne_nil _ _, List.cons_prefix_cons.2 ⟨rfl, hp⟩, ?_⟩
        rw [get_cons, hfind, Option.bind_some, hget]
    · rintro ⟨p, hne, hp, hget⟩
      cases p with
      | nil => exact absurd rfl hne
      | cons k' p =>
        obtain ⟨rfl, hbegin⟩ := List.cons_prefix_cons.1 hp
        rw [get_cons] at hget
        obtain ⟨t', hfind, hget⟩ := Option.bind_eq_some_iff.1 hget
        rw [hfind]
        simp only
        cases p with
        | nil => exact List.mem_append_left _ (Option.mem_toList.2 hget)
        | cons k'' p =>
          exact List.mem_append_right _ (ih.2 ⟨_, List.cons_ne_nil _ _, hbegin, hget⟩)

theorem erase_eq_alter (ks : List κ) (t : Trie κ α) :
    t.erase ks = t.alter (fun t => .node none t.children) ks := by
  induction ks generalizing t with
  | nil =>
    obtain ⟨v, cs⟩ := t
    rfl
  | cons k ks ih =>
    obtain ⟨v, cs⟩ := t
    rw [erase, alter]
    cases Dict.find k cs with
    | none => rfl
    | some t => simp only [ih]

/-- The way down a path meets the values of its beginnings. -/
theorem along_eq (ks : List κ) (t : Trie κ α) :
    along ks t = ks.inits.tail.filterMap fun p => get p t := by
  induction ks generalizing t with
  | nil => rfl
  | cons k ks ih =>
    rw [along, List.inits_cons, List.tail_cons, List.filterMap_map]
    cases hfind : Dict.find k t.children with
    | none =>
      simp only
      rw [eq_comm, List.filterMap_eq_nil_iff]
      intro p _
      rw [Function.comp_apply, get_cons, hfind]
      rfl
    | some t' =>
      have hget : ((fun p => get p t) ∘ fun p => k :: p) = fun p => get p t' := by
        funext p
        rw [Function.comp_apply, get_cons, hfind, Option.bind_some]
      simp only [hget]
      rw [ih]
      cases ks with
      | nil => cases hvalue : t'.value <;> simp [get_nil, hvalue]
      | cons k' ks => cases hvalue : t'.value <;> simp [get_nil, hvalue]

/-! ## Pruned tries -/

/-- No component twice in a node, and no empty nodes below the root. -/
inductive Pruned : Trie κ α → Prop
  | node (v : Option α) (cs : List (κ × Trie κ α)) (nodup : (cs.map Prod.fst).Nodup)
      (nonempty : ∀ e ∈ cs, e.2.isEmpty = false) (pruned : ∀ e ∈ cs, Pruned e.2) :
      Pruned (.node v cs)

omit [DecidableEq κ] in
theorem pruned_empty : Pruned (empty : Trie κ α) :=
  .node none [] List.nodup_nil (by simp) (by simp)

theorem insert_isEmpty (a : α) (ks : List κ) (t : Trie κ α) : (insert a ks t).isEmpty = false := by
  obtain ⟨v, cs⟩ := t
  cases ks with
  | nil => rfl
  | cons k ks =>
    rw [insert, isEmpty, Bool.and_eq_false_iff]
    refine .inr ?_
    cases cs with
    | nil => rfl
    | cons e cs =>
      rw [Dict.put]
      split_ifs <;> rfl

theorem Pruned.insert {t : Trie κ α} (h : t.Pruned) (a : α) (ks : List κ) :
    (t.insert a ks).Pruned := by
  induction ks generalizing t with
  | nil =>
    obtain ⟨v, cs, hnodup, hnonempty, hpruned⟩ := h
    exact .node _ _ hnodup hnonempty hpruned
  | cons k ks ih =>
    obtain ⟨v, cs, hnodup, hnonempty, hpruned⟩ := h
    have hchild : ((Dict.find k cs).getD empty).Pruned := by
      cases hfind : Dict.find k cs with
      | none => exact pruned_empty
      | some t => exact hpruned _ (Dict.mem_of_find hfind)
    refine .node _ _ (Dict.put_nodup hnodup) (fun e he => ?_) fun e he => ?_
    · rcases Dict.mem_of_mem_put he with rfl | he
      · exact insert_isEmpty a ks _
      · exact hnonempty e he
    · rcases Dict.mem_of_mem_put he with rfl | he
      · exact ih hchild
      · exact hpruned e he

theorem Pruned.alter {t : Trie κ α} (h : t.Pruned) {f : Trie κ α → Trie κ α}
    (hf : ∀ t, t.Pruned → (f t).Pruned) (ks : List κ) : (t.alter f ks).Pruned := by
  induction ks generalizing t with
  | nil => exact hf t h
  | cons k ks ih =>
    obtain ⟨v, cs, hnodup, hnonempty, hpruned⟩ := h
    rw [Trie.alter]
    split
    · exact .node _ _ hnodup hnonempty hpruned
    rename_i t hfind
    have hchild := ih (hpruned _ (Dict.mem_of_find hfind))
    simp only
    split_ifs with hempty
    · have hsub := Dict.drop_sublist k cs
      exact .node _ _ (hnodup.sublist (hsub.map _)) (fun e he => hnonempty e (hsub.subset he))
        fun e he => hpruned e (hsub.subset he)
    · refine .node _ _ (Dict.put_nodup hnodup) (fun e he => ?_) fun e he => ?_
      · rcases Dict.mem_of_mem_put he with rfl | he
        · exact Bool.eq_false_iff.2 hempty
        · exact hnonempty e he
      · rcases Dict.mem_of_mem_put he with rfl | he
        · exact hchild
        · exact hpruned e he

theorem Pruned.erase {t : Trie κ α} (h : t.Pruned) (ks : List κ) : (t.erase ks).Pruned := by
  rw [erase_eq_alter]
  apply h.alter
  rintro _ ⟨v, cs, hnodup, hnonempty, hpruned⟩
  exact .node _ _ hnodup hnonempty hpruned

theorem Pruned.cut {t : Trie κ α} (h : t.Pruned) (ks : List κ) : (t.cut ks).Pruned :=
  h.alter (fun _ _ => pruned_empty) ks

theorem get_of_isEmpty {t : Trie κ α} (h : t.isEmpty = true) (ks : List κ) : get ks t = none := by
  obtain ⟨v, cs⟩ := t
  rw [isEmpty, Bool.and_eq_true, Option.isNone_iff_eq_none, List.isEmpty_iff] at h
  obtain ⟨rfl, rfl⟩ := h
  exact get_empty ks

/-- Below the path the changed node answers, elsewhere nothing changed. -/
theorem get_alter {t : Trie κ α} (h : t.Pruned) (f : Trie κ α → Trie κ α) (ks ks' : List κ) :
    get ks' (t.alter f ks) = if ks <+: ks' then
      (sub ks t).bind fun t => get (ks'.drop ks.length) (f t) else get ks' t := by
  induction ks generalizing t ks' with
  | nil =>
    rw [if_pos List.nil_prefix]
    rfl
  | cons k ks ih =>
    obtain ⟨v, cs, hnodup, hnonempty, hpruned⟩ := h
    rw [alter, sub]
    simp only [children]
    cases hfind : Dict.find k cs with
    | none =>
      simp only [Option.bind_none]
      split_ifs with hbegin
      · obtain ⟨rest, rfl⟩ := hbegin
        rw [List.cons_append, get_cons, children, hfind, Option.bind_none]
      · rfl
    | some t =>
      have hchild := ih (hpruned _ (Dict.mem_of_find hfind))
      simp only [Option.bind_some]
      cases ks' with
      | nil =>
        have hnot : ¬ k :: ks <+: [] := by simp
        rw [if_neg hnot]
        split_ifs <;> rfl
      | cons k' ks' =>
        rw [List.length_cons, List.drop_succ_cons, get_cons k' ks' (.node v cs), children]
        by_cases hk : k' = k
        · obtain rfl := hk
          rw [hfind, Option.bind_some]
          simp only [List.cons_prefix_cons, true_and]
          rw [← hchild]
          split_ifs with hempty
          · rw [get_cons, children, Dict.find_drop _ _ hnodup, if_pos rfl, get_of_isEmpty hempty]
            rfl
          · rw [get_cons, children, Dict.find_put, if_pos rfl, Option.bind_some]
        · rw [if_neg fun hbegin => hk (List.cons_prefix_cons.1 hbegin).1.symm]
          split_ifs with hempty
          · rw [get_cons, children, Dict.find_drop _ _ hnodup, if_neg hk]
          · rw [get_cons, children, Dict.find_put, if_neg hk]

theorem get_erase {t : Trie κ α} (h : t.Pruned) (ks ks' : List κ) :
    get ks' (t.erase ks) = if ks' = ks then none else get ks' t := by
  rw [erase_eq_alter, get_alter h]
  by_cases hbegin : ks <+: ks'
  · obtain ⟨rest, rfl⟩ := hbegin
    rw [if_pos (List.prefix_append _ _), List.drop_left, get_append]
    cases rest with
    | nil =>
      rw [List.append_nil, if_pos rfl]
      cases sub ks t <;> rfl
    | cons k rest =>
      rw [if_neg (by simp)]
      cases sub ks t with
      | none => rfl
      | some t => rw [Option.bind_some, Option.bind_some, get_cons, get_cons]; rfl
  · rw [if_neg hbegin, if_neg]
    rintro rfl
    exact hbegin List.prefix_rfl

theorem get_cut {t : Trie κ α} (h : t.Pruned) (ks ks' : List κ) :
    get ks' (t.cut ks) = if ks <+: ks' then none else get ks' t := by
  rw [cut, get_alter h]
  split_ifs with hbegin
  · cases sub ks t with
    | none => rfl
    | some t => exact get_empty _
  · rfl

/-- A node that is not empty has something at or below it. -/
theorem Pruned.exists_get {t : Trie κ α} (h : t.Pruned) (hne : t.isEmpty = false) :
    ∃ ks, get ks t ≠ none := by
  induction h with
  | node v cs hnodup hnonempty hpruned ih =>
    cases v with
    | some a => exact ⟨[], by simp [value]⟩
    | none =>
      cases cs with
      | nil => exact absurd hne (by simp [isEmpty])
      | cons e cs =>
        obtain ⟨ks, hks⟩ := ih e List.mem_cons_self (hnonempty e List.mem_cons_self)
        refine ⟨e.1 :: ks, ?_⟩
        rw [get_cons]
        simp only [children, Dict.find, if_true, Option.bind_some]
        exact hks

theorem Pruned.sub {t t' : Trie κ α} (h : t.Pruned) {ks : List κ} (hsub : Trie.sub ks t = some t') :
    t'.Pruned := by
  induction ks generalizing t with
  | nil => exact Option.some.inj hsub ▸ h
  | cons k ks ih =>
    obtain ⟨v, cs, hnodup, hnonempty, hpruned⟩ := h
    obtain ⟨t₁, hfind, hsub⟩ := Option.bind_eq_some_iff.1 hsub
    exact ih (hpruned _ (Dict.mem_of_find hfind)) hsub

/-- A pruned trie has something under a path exactly if an extension of the path is stored. -/
theorem Pruned.hasUnder_iff {t : Trie κ α} (h : t.Pruned) {ks : List κ} :
    hasUnder ks t = true ↔ ∃ ks', ks <+: ks' ∧ get ks' t ≠ none := by
  rw [hasUnder, Option.any_eq_true]
  constructor
  · rintro ⟨t', hsub, hne⟩
    obtain ⟨rest, hrest⟩ := (h.sub hsub).exists_get (by simpa using hne)
    refine ⟨ks ++ rest, ⟨rest, rfl⟩, ?_⟩
    rw [get_append, hsub]
    exact hrest
  · rintro ⟨_, ⟨rest, rfl⟩, hget⟩
    rw [get_append] at hget
    cases hsub : Trie.sub ks t with
    | none => exact absurd (by rw [hsub]; rfl) hget
    | some t' =>
      refine ⟨t', rfl, ?_⟩
      rw [hsub] at hget
      by_contra hempty
      simp only [Bool.not_eq_true, Bool.not_eq_false'] at hempty
      exact hget (get_of_isEmpty hempty rest)

/-! ## All entries -/

mutual

/-- The entries of a trie with their paths. -/
def entries : Trie κ α → List (List κ × α)
  | .node v cs => (v.toList.map fun a => ([], a)) ++ entriesBelow cs

def entriesBelow : List (κ × Trie κ α) → List (List κ × α)
  | [] => []
  | (k, t) :: cs => ((entries t).map fun e => (k :: e.1, e.2)) ++ entriesBelow cs

end

omit [DecidableEq κ] in
theorem entriesBelow_eq (cs : List (κ × Trie κ α)) :
    entriesBelow cs = cs.flatMap fun c => (entries c.2).map fun e => (c.1 :: e.1, e.2) := by
  induction cs with
  | nil => rfl
  | cons c cs ih => rw [List.flatMap_cons, ← ih, entriesBelow]

theorem Pruned.mem_entries {t : Trie κ α} (h : t.Pruned) {ks : List κ} {a : α} :
    (ks, a) ∈ t.entries ↔ get ks t = some a := by
  induction h generalizing ks with
  | node v cs hnodup hnonempty hpruned ih =>
    rw [entries, entriesBelow_eq, List.mem_append, List.mem_map, List.mem_flatMap]
    constructor
    · rintro (⟨b, hb, heq⟩ | ⟨⟨k, t⟩, hc, hmem⟩)
      · obtain ⟨rfl, rfl⟩ := Prod.mk.inj heq
        exact Option.mem_toList.1 hb
      · obtain ⟨⟨ks', b⟩, he, heq⟩ := List.mem_map.1 hmem
        obtain ⟨rfl, rfl⟩ := Prod.mk.inj heq
        rw [get_cons, children, (Dict.mem_iff_find hnodup).1 hc]
        exact (ih _ hc).1 he
    · intro hget
      cases ks with
      | nil => exact .inl ⟨a, Option.mem_toList.2 hget, rfl⟩
      | cons k ks =>
        rw [get_cons] at hget
        obtain ⟨t, hfind, hget⟩ := Option.bind_eq_some_iff.1 hget
        have hc := Dict.mem_of_find hfind
        exact .inr ⟨(k, t), hc, List.mem_map.2 ⟨(ks, a), (ih _ hc).2 hget, rfl⟩⟩

omit [DecidableEq κ] in
theorem Pruned.nodup_entries {t : Trie κ α} (h : t.Pruned) : t.entries.Nodup := by
  induction h with
  | node v cs hnodup hnonempty hpruned ih =>
    rw [entries, entriesBelow_eq, List.nodup_append]
    refine ⟨?_, ?_, ?_⟩
    · cases v <;> simp
    · rw [List.nodup_flatMap]
      refine ⟨fun c hc => ?_, ?_⟩
      · apply (ih c hc).map
        rintro ⟨ks, a⟩ ⟨ks', a'⟩ heq
        simpa using heq
      · apply (List.pairwise_map.1 hnodup).imp
        intro c c' hne e he he'
        obtain ⟨d, _, rfl⟩ := List.mem_map.1 he
        obtain ⟨d', _, heq⟩ := List.mem_map.1 he'
        exact hne (List.cons.inj (Prod.mk.inj heq).1).1.symm
    · intro e he e' he' heq
      obtain ⟨a, _, rfl⟩ := List.mem_map.1 he
      obtain ⟨c, _, hc⟩ := List.mem_flatMap.1 he'
      obtain ⟨d, _, rfl⟩ := List.mem_map.1 hc
      exact absurd (Prod.mk.inj heq).1 (List.cons_ne_nil _ _).symm

end Trie

end Sunpack.Lib
