import Sunpack.PathMaps.Model

/-!
# The trie map agrees with the flat map

As long as no key is used next to a stored key that differs from it only by separators at the end,
the trie map answers every operation as the flat map does, and its trie has no empty nodes.
-/

namespace Sunpack.PathMaps

open Lib

/-- A list is sorted into the one order in which its measure increases. -/
theorem mergeSort_eq_of_perm {α : Type} (f : α → Nat) {l l' : List α}
    (hsorted : l'.Pairwise fun a b => f a < f b) (hperm : l.Perm l') :
    (l.mergeSort fun a b => f a ≤ f b) = l' := by
  have hmerged : (l.mergeSort fun a b => f a ≤ f b).Pairwise fun a b => f a ≤ f b := by
    apply (List.pairwise_mergeSort _ _ l).imp
    · intro a b hab
      exact of_decide_eq_true hab
    · intro a b c hab hbc
      simp only [decide_eq_true_eq] at hab hbc ⊢
      omega
    · intro a b
      simp only [Bool.or_eq_true, decide_eq_true_eq]
      omega
  have hne : l'.Pairwise fun a b => f a ≠ f b := hsorted.imp ne_of_lt
  have : Std.Symm fun a b => f a ≠ f b := ⟨fun _ _ h => h.symm⟩
  have hall := (List.mergeSort_perm l fun a b => f a ≤ f b).trans hperm
  apply List.Perm.eq_of_pairwise _ hmerged (hsorted.imp le_of_lt) hall
  intro a b ha hb hab hba
  by_contra hdiffer
  exact hne.forall (hall.subset ha) hb hdiffer (le_antisymm hab hba)

/-! ## Components and `path_key_is_under` -/

namespace AbsoluteKey

theorem withoutSeparators_eq (root : AbsoluteKey) :
    root.withoutSeparators = trimEnd '\\' root.text := by
  have hcongr (l : Text) (h : '/' ∉ l) :
      (l.dropWhile fun c => c = '\\' ∨ c = '/') = l.dropWhile (· = '\\') := by
    induction l with
    | nil => rfl
    | cons c l ih =>
      rw [List.mem_cons, not_or] at h
      rw [List.dropWhile_cons, List.dropWhile_cons, ih h.2]
      simp [Ne.symm h.1]
  rw [withoutSeparators, trimEnd, List.rdropWhile, List.rdropWhile, hcongr]
  rw [List.mem_reverse]
  exact root.slash_notMem

theorem isUnder_iff {candidate root : AbsoluteKey} :
    candidate.isUnder root = true ↔
      candidate = root ∨ Under '\\' candidate.text (trimEnd '\\' root.text) := by
  rw [isUnder, Bool.or_eq_true, decide_eq_true_eq, List.isPrefixOf_iff_prefix,
    withoutSeparators_eq, under_iff_prefix]

/-- Under a root is what continues its components, except that the root itself may have been
written with other separators at its end. -/
theorem isUnder_iff_prefix {candidate root : AbsoluteKey}
    (h : candidate.components = root.components → candidate.isUnder root = true) :
    candidate.isUnder root = true ↔ root.components <+: candidate.components := by
  by_cases hcomponents : candidate.components = root.components
  · rw [h hcomponents, hcomponents]
    exact iff_of_true rfl List.prefix_rfl
  · have htrimmed : trimEnd '\\' candidate.text ≠ trimEnd '\\' root.text := by
      intro heq
      exact hcomponents (by rw [components, components, heq])
    have hne : candidate ≠ root := by
      rintro rfl
      exact hcomponents rfl
    rw [isUnder_iff, components, components, splitOn_prefix_iff, under_trimEnd_iff htrimmed]
    exact or_congr (iff_of_false hne htrimmed.symm) Iff.rfl

end AbsoluteKey

/-! ## Keys kept apart -/

namespace Flat

variable {V : Type}

/-- No other stored key has the components of the key. -/
def alone (d : Flat V) (key : AbsoluteKey) : Bool :=
  d.keys.all fun stored => stored.components = key.components → stored = key

/-- A stored key with the components of the root is under the root. -/
def above (d : Flat V) (root : AbsoluteKey) : Bool :=
  d.keys.all fun stored => stored.components = root.components → stored.isUnder root

/-- The key is under every stored key with its components. -/
def below (d : Flat V) (key : AbsoluteKey) : Bool :=
  d.keys.all fun stored => key.components = stored.components → key.isUnder stored

/-- Each entry is alone when its turn comes. -/
def aloneAll (d : Flat V) : List (AbsoluteKey × V) → Bool
  | [] => true
  | entry :: rest => d.alone entry.1 && aloneAll (d.set entry.1 entry.2) rest

/-- The operation meets no stored key that differs from its own key only by separators at the
end, unless `path_key_is_under` relates them as their components do. -/
def apart (d : Flat V) : Op V → Bool
  | .set key _ => d.alone key
  | .ancestors key => d.below key
  | .hasUnder root => d.above root
  | .popUnder root => d.above root
  | .relocate path relocated =>
    d.above path && (d.popUnder path).2.aloneAll
      ((d.popUnder path).1.map fun entry => (relocated entry.1, entry.2))
  | .get _ | .keys | .delete _ | .clear => true

def apartAll (d : Flat V) : List (Op V) → Bool
  | [] => true
  | op :: ops => d.apart op && (d.apply op).2.apartAll ops

theorem alone_iff {d : Flat V} {key : AbsoluteKey} : d.alone key = true ↔
    ∀ stored, d.get? stored ≠ none → stored.components = key.components → stored = key := by
  simp only [alone, List.all_eq_true, decide_eq_true_eq, Dict.mem_keys]

theorem above_iff {d : Flat V} {root : AbsoluteKey} : d.above root = true ↔
    ∀ stored, d.get? stored ≠ none → (stored.isUnder root = true ↔
      root.components <+: stored.components) := by
  simp only [above, List.all_eq_true, decide_eq_true_eq, Dict.mem_keys]
  refine forall₂_congr fun stored _ => ⟨AbsoluteKey.isUnder_iff_prefix, fun h heq => h.2 ?_⟩
  rw [heq]

theorem below_iff {d : Flat V} {key : AbsoluteKey} : d.below key = true ↔
    ∀ stored, d.get? stored ≠ none → (key.isUnder stored = true ↔
      stored.components <+: key.components) := by
  simp only [below, List.all_eq_true, decide_eq_true_eq, Dict.mem_keys]
  refine forall₂_congr fun stored _ => ⟨AbsoluteKey.isUnder_iff_prefix, fun h heq => h.2 ?_⟩
  rw [heq]

end Flat

/-! ## Agreement -/

variable {V : Type}

/-- The two maps hold the same entries in the same order; the trie has each key at its own
components. -/
structure Agrees (m : PathMap V) (d : Flat V) : Prop where
  entries : (m.values.entries.map fun e => (e.1, e.2.2)) = d.entries
  ordered : (m.values.entries.map fun e => e.2.1).Pairwise (· < ·)
  bounded : ∀ n ∈ m.values.entries.map fun e => e.2.1, n ≤ m.sequence
  pruned : m.root.Pruned
  stored : ∀ path key, m.root.get path = some key ↔ d.get? key ≠ none ∧ key.components = path

namespace Agrees

theorem empty : Agrees ({} : PathMap V) ∅ where
  entries := rfl
  ordered := List.Pairwise.nil
  bounded n hn := absurd hn List.not_mem_nil
  pruned := Trie.pruned_empty
  stored path key := by
    rw [Trie.get_empty, Dict.get?_empty]
    simp

variable {m : PathMap V} {d : Flat V}

theorem get (h : Agrees m d) (key : AbsoluteKey) : m.get key = d.get? key := by
  rw [PathMap.get, Dict.get?, Dict.get?, ← h.entries]
  induction m.values.entries with
  | nil => rfl
  | cons e es ih =>
    rw [List.map_cons, Dict.find, Dict.find]
    split_ifs
    · rfl
    · exact ih

theorem keys (h : Agrees m d) : m.values.keys = d.keys := by
  rw [Dict.keys, Dict.keys, ← h.entries, List.map_map]
  rfl

theorem get?_ne_none (h : Agrees m d) (key : AbsoluteKey) :
    m.values.get? key ≠ none ↔ d.get? key ≠ none := by
  rw [← Dict.mem_keys, ← Dict.mem_keys, h.keys]

/-- Two stored keys never have the same components. -/
theorem eq_of_components (h : Agrees m d) {key key' : AbsoluteKey} (hkey : d.get? key ≠ none)
    (hkey' : d.get? key' ≠ none) (heq : key.components = key'.components) : key = key' := by
  have hget := (h.stored _ key).2 ⟨hkey, rfl⟩
  have hget' := (h.stored _ key').2 ⟨hkey', rfl⟩
  rw [heq, hget'] at hget
  exact (Option.some.inj hget).symm

theorem clearIfEmpty (h : Agrees m d) : Agrees m.clearIfEmpty d := by
  unfold PathMap.clearIfEmpty
  split_ifs with hempty
  · have hd : d = ∅ := by
      apply Dict.eq_of_entries
      have hkeys := h.keys
      rw [List.isEmpty_iff.1 hempty] at hkeys
      exact List.map_eq_nil_iff.1 hkeys.symm
    rw [hd]
    exact empty
  · exact h

/-! ## Setting and deleting -/

/-- A key that is there keeps its place and its number, so only the value changes. -/
theorem set_present (h : Agrees m d) {key : AbsoluteKey} {previous : Nat × V}
    (hget : m.values.get? key = some previous) (value : V) :
    Agrees { m with values := m.values.set key (previous.1, value) } (d.set key value) := by
  have hput (es : List (AbsoluteKey × Nat × V)) (hfind : Dict.find key es = some previous) :
      ((Dict.put key (previous.1, value) es).map fun e => (e.1, e.2.2)) =
          Dict.put key value (es.map fun e => (e.1, e.2.2)) ∧
        ((Dict.put key (previous.1, value) es).map fun e => e.2.1) = es.map fun e => e.2.1 := by
    induction es with
    | nil => exact absurd hfind (by simp [Dict.find])
    | cons e es ih =>
      rw [Dict.find] at hfind
      rw [List.map_cons, Dict.put, Dict.put]
      split_ifs at hfind ⊢ with hk
      · obtain rfl := Option.some.inj hfind
        exact ⟨rfl, rfl⟩
      · obtain ⟨hvalues, hnumbers⟩ := ih hfind
        rw [List.map_cons, List.map_cons, hvalues, hnumbers]
        exact ⟨rfl, rfl⟩
  obtain ⟨hvalues, hnumbers⟩ := hput m.values.entries hget
  have hkey : d.get? key ≠ none := by
    rw [← h.get?_ne_none, hget]
    exact Option.some_ne_none _
  refine ⟨?_, ?_, ?_, h.pruned, fun path key' => ?_⟩
  · show (Dict.put key (previous.1, value) m.values.entries).map _ = Dict.put key value d.entries
    rw [hvalues, h.entries]
  · rw [Dict.set, hnumbers]
    exact h.ordered
  · rw [Dict.set, hnumbers]
    exact h.bounded
  · rw [h.stored, Dict.get?_set]
    split_ifs with heq
    · simp [heq, hkey]
    · rfl

/-- A new key goes to the end of both maps, and to its own node. -/
theorem set_new (h : Agrees m d) {key : AbsoluteKey} (hget : m.values.get? key = none)
    (halone : d.alone key = true) (value : V) :
    Agrees
      { values := m.values.set key (m.sequence + 1, value)
        root := m.root.insert key key.components
        sequence := m.sequence + 1 } (d.set key value) := by
  have hnone : d.get? key = none := by
    by_contra hne
    exact (h.get?_ne_none key).2 hne hget
  refine ⟨?_, ?_, ?_, h.pruned.insert _ _, fun path key' => ?_⟩
  · rw [Dict.entries_set_new hget, Dict.entries_set_new hnone, List.map_append, h.entries]
    rfl
  · rw [Dict.entries_set_new hget, List.map_append, List.pairwise_append]
    refine ⟨h.ordered, List.pairwise_singleton _ _, fun n hn n' hn' => ?_⟩
    rw [List.mem_singleton.1 hn']
    exact Nat.lt_succ_of_le (h.bounded n hn)
  · rw [Dict.entries_set_new hget, List.map_append]
    intro n hn
    rcases List.mem_append.1 hn with hn | hn
    · exact Nat.le_succ_of_le (h.bounded n hn)
    · exact (List.mem_singleton.1 hn).le
  · rw [Trie.get_insert, Dict.get?_set]
    by_cases hpath : path = key.components
    · rw [if_pos hpath, hpath, Option.some.injEq]
      split_ifs with heq
      · simp [heq]
      · have hother := Flat.alone_iff.1 halone key'
        exact iff_of_false (Ne.symm heq) fun hboth => heq (hother hboth.1 hboth.2)
    · rw [if_neg hpath, h.stored]
      split_ifs with heq
      · rw [heq, hnone]
        exact iff_of_false (fun hboth => hboth.1 rfl) fun hboth => hpath hboth.2.symm
      · rfl

theorem set (h : Agrees m d) {key : AbsoluteKey} (halone : d.alone key = true) (value : V) :
    Agrees (m.set key value) (d.set key value) := by
  unfold PathMap.set
  cases hget : m.values.get? key with
  | some previous => exact h.set_present hget value
  | none => exact h.set_new hget halone value

theorem setAll (h : Agrees m d) {entries : List (AbsoluteKey × V)}
    (halone : Flat.aloneAll d entries = true) :
    Agrees (entries.foldl (fun m entry => m.set entry.1 entry.2) m)
      (entries.foldl (fun d entry => d.set entry.1 entry.2) d) := by
  induction entries generalizing m d with
  | nil => exact h
  | cons entry entries ih =>
    rw [Flat.aloneAll, Bool.and_eq_true] at halone
    exact ih (h.set halone.1 entry.2) halone.2

/-- What is kept by its key is kept alike in both maps. -/
theorem entries_filter (h : Agrees m d) (p : AbsoluteKey → Bool) :
    ((m.values.filter p).entries.map fun e => (e.1, e.2.2)) = (d.filter p).entries := by
  show (m.values.entries.filter _).map _ = d.entries.filter _
  rw [← h.entries, List.filter_map]
  rfl

/-- Keeping part of the keys, with a trie that has exactly their nodes. -/
theorem filter (h : Agrees m d) {p : AbsoluteKey → Bool} {root : Trie Text AbsoluteKey}
    (hpruned : root.Pruned)
    (hget : ∀ path key, root.get path = some key ↔ m.root.get path = some key ∧ p key = true) :
    Agrees { m with values := m.values.filter p, root := root } (d.filter p) := by
  have hsublist : (m.values.filter p).entries.Sublist m.values.entries := List.filter_sublist
  refine ⟨h.entries_filter p, h.ordered.sublist (hsublist.map _), fun n hn => ?_, hpruned,
    fun path key => ?_⟩
  · exact h.bounded n ((hsublist.map _).subset hn)
  · rw [hget, h.stored, Dict.get?_filter]
    split_ifs with hp <;> simp [hp]

theorem delete (h : Agrees m d) (key : AbsoluteKey) :
    (m.delete key).1 = (Flat.delete d key).1 ∧
      Agrees (m.delete key).2 (Flat.delete d key).2 := by
  unfold PathMap.delete Flat.delete
  have hboth := h.get?_ne_none key
  cases hflat : d.get? key with
  | none =>
    rw [hflat] at hboth
    rw [not_not.1 (mt hboth.1 (not_not.2 rfl))]
    exact ⟨rfl, h⟩
  | some value =>
    obtain ⟨entry, hentry⟩ := Option.ne_none_iff_exists'.1 (hboth.2 (by simp [hflat]))
    have hnode := (h.stored key.components key).2 ⟨by simp [hflat], rfl⟩
    rw [hentry]
    simp only [hnode, true_and]
    apply clearIfEmpty
    rw [Dict.erase_eq_filter, Dict.erase_eq_filter]
    apply h.filter (h.pruned.erase _)
    intro path key'
    rw [Trie.get_erase h.pruned]
    split_ifs with hpath
    · rw [hpath, hnode, Option.some.injEq, decide_eq_true_eq]
      exact iff_of_false (by simp) fun hboth => hboth.2 hboth.1.symm
    · rw [decide_eq_true_eq]
      refine (and_iff_left_of_imp fun hget => ?_).symm
      rintro rfl
      exact hpath ((h.stored _ _).1 hget).2.symm

end Agrees

/-! ## Popping keys -/

/-- Whatever order the nodes are taken in, the keys below them are all there, once for each node. -/
theorem PathMap.collect_perm (pending : List (Trie Text AbsoluteKey)) (keys : List AbsoluteKey) :
    (collect pending keys).Perm (keys ++ pending.flatMap fun t => t.entries.map (·.2)) := by
  induction pending, keys using collect.induct with
  | case1 keys => simp [collect]
  | case2 t pending keys ih =>
    obtain ⟨v, cs⟩ := t
    have hentries : (Trie.node v cs).entries.map (·.2) =
        v.toList ++ (cs.map (·.2)).flatMap fun t => t.entries.map (·.2) := by
      rw [Trie.entries, Trie.entriesBelow_eq, List.map_append, List.map_map, List.map_flatMap,
        List.flatMap_map]
      simp [Function.comp_def]
    have hreverse : ((cs.map (·.2)).reverse.flatMap fun t => t.entries.map (·.2)).Perm
        ((cs.map (·.2)).flatMap fun t => t.entries.map (·.2)) :=
      (List.reverse_perm _).flatMap_right _
    rw [collect, List.flatMap_cons, hentries, ← List.append_assoc, ← List.append_assoc]
    refine ih.trans ?_
    rw [List.flatMap_append, ← List.append_assoc]
    exact ((hreverse.append_left _)).append_right _

/-- The sequence number that the sort looks up. -/
def PathMap.sequenced (values : Dict AbsoluteKey (Nat × V)) (key : AbsoluteKey) :
    Nat × AbsoluteKey :=
  (((values.get? key).map (·.1)).getD 0, key)

/-- Sorting brings keys that are there into the order of the dictionary. -/
theorem PathMap.sortKeys_eq {values : Dict AbsoluteKey (Nat × V)}
    (hordered : (values.entries.map fun e => e.2.1).Pairwise (· < ·)) (p : AbsoluteKey → Bool)
    {keys : List AbsoluteKey} (hperm : keys.Perm (values.filter p).keys) :
    sortKeys values keys = some (values.filter p).keys := by
  have hlookup (key : AbsoluteKey) (hkey : key ∈ keys) :
      ((values.get? key).map fun entry => (entry.1, key)) = some (sequenced values key) := by
    have hmem := hperm.subset hkey
    rw [Dict.mem_keys, Dict.get?_filter] at hmem
    split_ifs at hmem
    · obtain ⟨entry, hentry⟩ := Option.ne_none_iff_exists'.1 hmem
      rw [sequenced, hentry]
      rfl
    · exact absurd rfl hmem
  have hmap : (keys.mapM fun key => (values.get? key).map fun entry => (entry.1, key)) =
      some (keys.map (sequenced values)) := by
    clear hperm
    induction keys with
    | nil => rfl
    | cons key keys ih =>
      rw [List.mapM_cons, hlookup key List.mem_cons_self,
        ih fun key hkey => hlookup key (List.mem_cons_of_mem _ hkey)]
      rfl
  have hkeys : (values.filter p).keys.map (sequenced values) =
      (values.filter p).entries.map fun e => (e.2.1, e.1) := by
    rw [Dict.keys, List.map_map]
    refine List.map_congr_left fun e he => ?_
    have hget : values.get? e.1 = some e.2 := Dict.mem_entries.1 (List.mem_of_mem_filter he)
    rw [Function.comp_apply, sequenced, hget]
    rfl
  have hsorted : ((values.filter p).entries.map fun e => (e.2.1, e.1)).Pairwise
      fun a b => a.1 < b.1 := by
    rw [List.pairwise_map] at hordered ⊢
    exact hordered.sublist List.filter_sublist
  have hpermuted := hperm.map (sequenced values)
  rw [hkeys] at hpermuted
  have hsort := mergeSort_eq_of_perm (fun e : Nat × AbsoluteKey => e.1) hsorted hpermuted
  rw [sortKeys, hmap, Option.map_some, hsort, List.map_map]
  rfl

/-- Popping keys that are there takes exactly these out. -/
theorem PathMap.popAll_eq {values : Dict AbsoluteKey (Nat × V)} {keys : List AbsoluteKey}
    (hnodup : keys.Nodup) (hkeys : ∀ key ∈ keys, values.get? key ≠ none) :
    popAll values keys =
      (some (keys.filterMap fun key => (values.get? key).map fun entry => (key, entry.2)),
        values.filter (· ∉ keys)) := by
  induction keys generalizing values with
  | nil =>
    rw [popAll]
    refine Prod.ext rfl (Dict.eq_of_entries ?_)
    exact (List.filter_eq_self.2 fun e _ => by simp).symm
  | cons key keys ih =>
    rw [List.nodup_cons] at hnodup
    obtain ⟨entry, hentry⟩ := Option.ne_none_iff_exists'.1 (hkeys key List.mem_cons_self)
    have hother (key' : AbsoluteKey) (hkey' : key' ∈ keys) :
        (values.erase key).get? key' = values.get? key' := by
      apply Dict.get?_erase_of_ne
      rintro rfl
      exact hnodup.1 hkey'
    rw [popAll, hentry]
    simp only
    rw [ih hnodup.2, List.filterMap_cons, hentry]
    · simp only [Option.map_some]
      refine Prod.ext ?_ ?_
      · simp only [Option.some.injEq]
        congr 1
        refine List.filterMap_congr fun key' hkey' => ?_
        rw [hother key' hkey']
      · simp only
        rw [Dict.erase_eq_filter, Dict.filter_filter]
        apply Dict.eq_of_entries
        refine List.filter_congr fun e _ => ?_
        simp [not_or]
    · intro key' hkey'
      rw [hother key' hkey']
      exact hkeys key' (List.mem_cons_of_mem _ hkey')

theorem PathMap.popAll_filter (values : Dict AbsoluteKey (Nat × V)) (p : AbsoluteKey → Bool) :
    popAll values (values.filter p).keys =
      (some ((values.filter p).entries.map fun e => (e.1, e.2.2)), values.filter (!p ·)) := by
  have hget (key : AbsoluteKey) (hkey : key ∈ (values.filter p).keys) :
      p key = true ∧ values.get? key ≠ none := by
    rw [Dict.mem_keys, Dict.get?_filter] at hkey
    split_ifs at hkey with hp
    · exact ⟨hp, hkey⟩
    · exact absurd rfl hkey
  have hnodup : (values.filter p).keys.Nodup := (values.filter p).nodup
  rw [popAll_eq hnodup fun key hkey => (hget key hkey).2]
  refine Prod.ext ?_ (Dict.eq_of_entries (List.filter_congr fun e he => ?_))
  · simp only [Dict.keys, List.filterMap_map, Option.some.injEq]
    rw [← List.filterMap_eq_map]
    refine List.filterMap_congr fun e he => ?_
    have hentry : values.get? e.1 = some e.2 := Dict.mem_entries.1 (List.mem_of_mem_filter he)
    rw [Function.comp_apply, hentry]
    rfl
  · cases hp : p e.1 with
    | true =>
      have hmem : e.1 ∈ (values.filter p).keys :=
        List.mem_map_of_mem (List.mem_filter.2 ⟨he, hp⟩)
      simp [hmem, hp]
    | false =>
      have hnot : e.1 ∉ (values.filter p).keys := fun hmem =>
        Bool.false_ne_true (hp.symm.trans (hget e.1 hmem).1)
      simp [hnot, hp]

namespace Agrees

variable {m : PathMap V} {d : Flat V}

theorem keys_filter (h : Agrees m d) (p : AbsoluteKey → Bool) :
    (m.values.filter p).keys = (d.filter p).keys := by
  rw [Dict.keys, Dict.keys, ← h.entries_filter, List.map_map]
  rfl

/-- The keys below a node are the stored keys under its path. -/
theorem collect_perm (h : Agrees m d) {root : AbsoluteKey} (habove : d.above root = true)
    {node : Trie Text AbsoluteKey} (hnode : Trie.sub root.components m.root = some node) :
    (PathMap.collect [node] []).Perm (d.filter (·.isUnder root)).keys := by
  have hget (rest : List Text) (key : AbsoluteKey) : (rest, key) ∈ node.entries ↔
      d.get? key ≠ none ∧ key.components = root.components ++ rest := by
    rw [(h.pruned.sub hnode).mem_entries, ← h.stored, Trie.get_append, hnode, Option.bind_some]
  have hnodup : (node.entries.map (·.2)).Nodup := by
    apply (h.pruned.sub hnode).nodup_entries.map_on
    rintro ⟨rest, key⟩ he ⟨rest', key'⟩ he' (rfl : key = key')
    have heq := ((hget _ _).1 he).2.symm.trans ((hget _ _).1 he').2
    rw [List.append_cancel_left heq]
  have hperm := PathMap.collect_perm [node] []
  rw [List.nil_append, List.flatMap_cons, List.flatMap_nil, List.append_nil] at hperm
  apply hperm.trans
  have hkeys : (d.filter (·.isUnder root)).keys.Nodup := (d.filter _).nodup
  rw [List.perm_ext_iff_of_nodup hnodup hkeys]
  intro key
  rw [Dict.mem_keys, Dict.get?_filter, List.mem_map]
  constructor
  · rintro ⟨⟨rest, key⟩, he, rfl⟩
    obtain ⟨hstored, hcomponents⟩ := (hget _ _).1 he
    rw [if_pos]
    · exact hstored
    · rw [Flat.above_iff.1 habove key hstored, hcomponents]
      exact List.prefix_append _ _
  · intro hkey
    split_ifs at hkey with hunder
    · obtain ⟨rest, hrest⟩ := (Flat.above_iff.1 habove key hkey).1 hunder
      exact ⟨(rest, key), (hget _ _).2 ⟨hkey, hrest.symm⟩, rfl⟩
    · exact absurd rfl hkey

theorem popUnder (h : Agrees m d) {root : AbsoluteKey} (habove : d.above root = true) :
    (m.popUnder root).1 = .ok (d.popUnder root).1 ∧
      Agrees (m.popUnder root).2 (d.popUnder root).2 := by
  unfold PathMap.popUnder Flat.popUnder
  cases hnode : Trie.sub root.components m.root with
  | none =>
    have hnot (e : AbsoluteKey × V) (he : e ∈ d.entries) : e.1.isUnder root = false := by
      have hstored : d.get? e.1 ≠ none := by
        rw [Dict.mem_entries.1 he]
        exact Option.some_ne_none _
      rw [Bool.eq_false_iff, ne_eq, Flat.above_iff.1 habove e.1 hstored]
      rintro ⟨rest, hrest⟩
      have hget := (h.stored _ e.1).2 ⟨hstored, hrest.symm⟩
      rw [Trie.get_append, hnode] at hget
      exact absurd hget (by simp)
    have hnone : (d.entries.filter fun entry => entry.1.isUnder root) = [] := by
      rw [List.filter_eq_nil_iff]
      intro e he
      rw [hnot e he]
      exact Bool.false_ne_true
    have hall : d.filter (fun key => !key.isUnder root) = d := by
      apply Dict.eq_of_entries
      rw [Dict.filter, List.filter_eq_self]
      intro e he
      rw [hnot e he]
      rfl
    rw [hnone, hall]
    exact ⟨rfl, h⟩
  | some node =>
    have hkeys := h.keys_filter (·.isUnder root)
    have hsort : PathMap.sortKeys m.values (PathMap.collect [node] []) =
        some (m.values.filter (·.isUnder root)).keys := by
      apply PathMap.sortKeys_eq h.ordered
      rw [hkeys]
      exact h.collect_perm habove hnode
    simp only [hsort, PathMap.popAll_filter, h.entries_filter]
    refine ⟨rfl, clearIfEmpty (h.filter (h.pruned.cut _) fun path key => ?_)⟩
    rw [Trie.get_cut h.pruned]
    have hunder (hget : m.root.get path = some key) :
        key.isUnder root = true ↔ root.components <+: path := by
      obtain ⟨hstored, rfl⟩ := (h.stored path key).1 hget
      exact Flat.above_iff.1 habove key hstored
    split_ifs with hbegin
    · refine iff_of_false (by simp) fun hboth => ?_
      rw [(hunder hboth.1).2 hbegin] at hboth
      exact Bool.false_ne_true hboth.2
    · refine (and_iff_left_of_imp fun hget => ?_).symm
      rw [Bool.not_eq_true', Bool.eq_false_iff, ne_eq, hunder hget]
      exact hbegin

theorem relocate (h : Agrees m d) {path : AbsoluteKey} (habove : d.above path = true)
    {relocated : AbsoluteKey → AbsoluteKey}
    (halone : (d.popUnder path).2.aloneAll
      ((d.popUnder path).1.map fun entry => (relocated entry.1, entry.2)) = true) :
    (m.relocate path relocated).1 = .ok () ∧
      Agrees (m.relocate path relocated).2 (d.relocate path relocated) := by
  obtain ⟨hpopped, hagrees⟩ := h.popUnder habove
  have hmoved := hagrees.setAll halone
  rw [List.foldl_map, List.foldl_map] at hmoved
  unfold PathMap.relocate
  simp only [hpopped, true_and]
  exact hmoved

theorem hasUnder (h : Agrees m d) {root : AbsoluteKey} (habove : d.above root = true) :
    m.hasUnder root = d.hasUnder root := by
  rw [Bool.eq_iff_iff, PathMap.hasUnder, h.pruned.hasUnder_iff, Flat.hasUnder, List.any_eq_true]
  constructor
  · rintro ⟨path, hbegin, hget⟩
    obtain ⟨key, hkey⟩ := Option.ne_none_iff_exists'.1 hget
    obtain ⟨hstored, rfl⟩ := (h.stored path key).1 hkey
    obtain ⟨value, hvalue⟩ := Option.ne_none_iff_exists'.1 hstored
    exact ⟨(key, value), Dict.mem_entries.2 hvalue, (Flat.above_iff.1 habove key hstored).2 hbegin⟩
  · rintro ⟨e, he, hunder⟩
    have hstored : d.get? e.1 ≠ none := by
      rw [Dict.mem_entries.1 he]
      exact Option.some_ne_none _
    refine ⟨e.1.components, (Flat.above_iff.1 habove e.1 hstored).1 hunder, ?_⟩
    rw [(h.stored _ e.1).2 ⟨hstored, rfl⟩]
    exact Option.some_ne_none _

theorem mem_ancestors (h : Agrees m d) {key : AbsoluteKey} (e : AbsoluteKey × V) :
    e ∈ m.ancestors key ↔ e.1.components <+: key.components ∧ e ∈ d.entries := by
  rw [PathMap.ancestors, List.mem_filterMap]
  constructor
  · rintro ⟨stored, halong, hvalue⟩
    obtain ⟨value, hget, rfl⟩ := Option.map_eq_some_iff.1 hvalue
    obtain ⟨path, _, hbegin, hnode⟩ := Trie.mem_along.1 halong
    obtain ⟨_, rfl⟩ := (h.stored path stored).1 hnode
    rw [h.get] at hget
    exact ⟨hbegin, Dict.mem_entries.2 hget⟩
  · rintro ⟨hbegin, he⟩
    have hget := Dict.mem_entries.1 he
    refine ⟨e.1, Trie.mem_along.2 ⟨e.1.components, List.splitOn_ne_nil _ _, hbegin, ?_⟩, ?_⟩
    · rw [h.stored, hget]
      exact ⟨Option.some_ne_none _, rfl⟩
    · rw [h.get, hget]
      rfl

/-- On the way down the keys get longer. -/
theorem pairwise_ancestors (h : Agrees m d) (key : AbsoluteKey) :
    (m.ancestors key).Pairwise fun a b => a.1.components.length < b.1.components.length := by
  have hinits (l : List Text) : l.inits.Pairwise fun p q => p.length < q.length := by
    induction l with
    | nil => exact List.pairwise_singleton _ _
    | cons a l ih =>
      rw [List.inits_cons, List.pairwise_cons, List.pairwise_map]
      refine ⟨fun p hp => ?_, ih.imp fun hlt => Nat.succ_lt_succ hlt⟩
      obtain ⟨q, _, rfl⟩ := List.mem_map.1 hp
      exact Nat.succ_pos _
  rw [PathMap.ancestors, Trie.along_eq, List.pairwise_filterMap, List.pairwise_filterMap]
  apply ((hinits key.components).sublist (List.tail_sublist _)).imp
  intro p q hlt a ha b hb e he e' he'
  obtain ⟨_, _, rfl⟩ := Option.map_eq_some_iff.1 he
  obtain ⟨_, _, rfl⟩ := Option.map_eq_some_iff.1 he'
  rw [((h.stored p a).1 ha).2, ((h.stored q b).1 hb).2]
  exact hlt

theorem ancestors (h : Agrees m d) {key : AbsoluteKey} (hbelow : d.below key = true) :
    m.ancestors key = d.ancestors key := by
  have hpairwise := h.pairwise_ancestors key
  have hnodup : (m.ancestors key).Nodup := by
    apply hpairwise.imp
    rintro a _ hlt rfl
    exact lt_irrefl _ hlt
  have hentries : d.entries.Nodup := List.Nodup.of_map _ d.nodup
  refine (mergeSort_eq_of_perm (fun e : AbsoluteKey × V => e.1.components.length) hpairwise ?_).symm
  rw [List.perm_ext_iff_of_nodup (hentries.filter _) hnodup]
  intro e
  rw [h.mem_ancestors, List.mem_filter, and_comm]
  refine and_congr_left fun he => Flat.below_iff.1 hbelow e.1 ?_
  rw [Dict.mem_entries.1 he]
  exact Option.some_ne_none _

/-! ## Whole runs -/

/-- One operation: the same answer, and agreement again. -/
theorem apply (h : Agrees m d) {op : Op V} (hop : d.apart op = true) :
    (m.apply op).1 = (d.apply op).1 ∧ Agrees (m.apply op).2 (d.apply op).2 := by
  cases op with
  | get key => exact ⟨congrArg Answer.ofValue (h.get key), h⟩
  | keys => exact ⟨congrArg Answer.keys h.keys, h⟩
  | set key value => exact ⟨rfl, h.set hop value⟩
  | delete key => exact ⟨congrArg Answer.ofUnit (h.delete key).1, (h.delete key).2⟩
  | clear => exact ⟨rfl, empty⟩
  | ancestors key => exact ⟨congrArg Answer.entries (h.ancestors hop), h⟩
  | hasUnder root => exact ⟨congrArg Answer.flag (h.hasUnder hop), h⟩
  | popUnder root => exact ⟨congrArg Answer.ofEntries (h.popUnder hop).1, (h.popUnder hop).2⟩
  | relocate path relocated =>
    rw [Flat.apart, Bool.and_eq_true] at hop
    obtain ⟨hanswer, hagrees⟩ := h.relocate hop.1 hop.2
    exact ⟨congrArg Answer.ofUnit hanswer, hagrees⟩

theorem run (h : Agrees m d) {ops : List (Op V)} (hops : d.apartAll ops = true) :
    (run PathMap.apply m ops).1 = (run Flat.apply d ops).1 ∧
      Agrees (run PathMap.apply m ops).2 (run Flat.apply d ops).2 := by
  induction ops generalizing m d with
  | nil => exact ⟨rfl, h⟩
  | cons op ops ih =>
    rw [Flat.apartAll, Bool.and_eq_true] at hops
    obtain ⟨hanswer, hagrees⟩ := h.apply hops.1
    obtain ⟨hanswers, hfinal⟩ := ih hagrees hops.2
    refine ⟨?_, hfinal⟩
    rw [PathMaps.run, PathMaps.run, hanswer, hanswers]

end Agrees

/-- While keys that differ only by separators at their end are kept apart, every sequence of
operations is answered as by the flat map, and leaves its entries in a trie without empty nodes. -/
theorem run_flat (ops : List (Op V)) (hops : Flat.apartAll ∅ ops = true) :
    (run PathMap.apply {} ops).1 = (run Flat.apply ∅ ops).1 ∧
      ((run PathMap.apply {} ops).2.values.entries.map fun e => (e.1, e.2.2)) =
        (run Flat.apply (∅ : Flat V) ops).2.entries ∧
      (run PathMap.apply ({} : PathMap V) ops).2.root.Pruned := by
  obtain ⟨hanswers, hagrees⟩ := Agrees.empty.run hops
  exact ⟨hanswers, hagrees.entries, hagrees.pruned⟩

/-- The key of a path that is absolute already, where only ASCII letters have cases. -/
def keyOf (path : String) : AbsoluteKey := absolutePathKey .asciiOnly id path.toList

theorem run_flat_drive :
    (run PathMap.apply {} [.set (keyOf "C:\\") 1, .set (keyOf "C:\\a\\b") 2, .set (keyOf "c:\\A") 3,
      .hasUnder (keyOf "C:\\a"), .relocate (keyOf "C:\\a") id, .delete (keyOf "C:\\"),
      .popUnder (keyOf "C:\\")]).1 =
    [.done, .done, .done, .flag true, .done, .done,
      .entries [(keyOf "C:\\a\\b", 2), (keyOf "C:\\a", 3)]] :=
  (run_flat [.set (keyOf "C:\\") 1, .set (keyOf "C:\\a\\b") 2, .set (keyOf "c:\\A") 3,
    .hasUnder (keyOf "C:\\a"), .relocate (keyOf "C:\\a") id, .delete (keyOf "C:\\"),
    .popUnder (keyOf "C:\\")] (by decide +kernel)).1.trans (by decide +kernel)

/-- A share root without and with its separator: two keys, one node. Deleting the first takes the
node away, and then the second, which is there, cannot be deleted. -/
theorem share_root_lost :
    (run PathMap.apply {} [.set (keyOf "\\\\server\\share") 1, .set (keyOf "\\\\server\\share\\") 2,
      .delete (keyOf "\\\\server\\share"), .delete (keyOf "\\\\server\\share\\")]).1 =
        [.done, .done, .done, .keyError] ∧
    (run Flat.apply ∅ [.set (keyOf "\\\\server\\share") 1, .set (keyOf "\\\\server\\share\\") 2,
      .delete (keyOf "\\\\server\\share"), .delete (keyOf "\\\\server\\share\\")]).1 =
        [.done, .done, .done, .done] := by
  decide +kernel

end Sunpack.PathMaps
