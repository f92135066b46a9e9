import Mathlib

/-!
# Sorted key lists

A map with ordered keys as the list of its entries.
-/

namespace Sunpack.Lib

variable {K V : Type*} [LinearOrder K]

/-- Sets a key, at its place. -/
def insertKey (k : K) (v : V) : List (K × V) → List (K × V)
  | [] => [(k, v)]
  | e :: es =>
    if k < e.1 then (k, v) :: e :: es
    else if e.1 = k then (k, v) :: es
    else e :: insertKey k v es

theorem lookup_insertKey (k k' : K) (v : V) (es : List (K × V)) :
    (insertKey k v es).lookup k' = if k' = k then some v else es.lookup k' := by
  induction es with
  | nil =>
    rw [insertKey, List.lookup_cons]
    by_cases hk : k' = k
    · simp [hk]
    · simp [hk, beq_false_of_ne hk]
  | cons e es ih =>
    rw [insertKey]
    by_cases hlt : k < e.1
    · rw [if_pos hlt, List.lookup_cons]
      by_cases hk : k' = k
      · simp [hk]
      · simp [hk, beq_false_of_ne hk]
    · rw [if_neg hlt]
      by_cases heq : e.1 = k
      · rw [if_pos heq, List.lookup_cons, List.lookup_cons, heq]
        by_cases hk : k' = k
        · simp [hk]
        · simp [hk, beq_false_of_ne hk]
      · rw [if_neg heq, List.lookup_cons, List.lookup_cons, ih]
        by_cases hk : k' = k
        · have hne : (k' == e.1) = false := beq_false_of_ne (hk ▸ Ne.symm heq)
          rw [hne, if_pos hk]
        · rw [if_neg hk, if_neg hk]

theorem mem_insertKey {k : K} {v : V} {es : List (K × V)} {e : K × V} (h : e ∈ insertKey k v es) :
    e = (k, v) ∨ e ∈ es := by
  induction es with
  | nil =>
    rw [insertKey, List.mem_singleton] at h
    exact Or.inl h
  | cons d es ih =>
    rw [insertKey] at h
    split_ifs at h
    · rcases List.mem_cons.1 h with h | h
      · exact Or.inl h
      · exact Or.inr h
    · rcases List.mem_cons.1 h with h | h
      · exact Or.inl h
      · exact Or.inr (List.mem_cons_of_mem _ h)
    · rcases List.mem_cons.1 h with h | h
      · exact Or.inr (h ▸ List.mem_cons_self)
      · exact (ih h).imp_right (List.mem_cons_of_mem _)

theorem insertKey_sorted {k : K} {v : V} {es : List (K × V)}
    (h : es.Pairwise fun a b => a.1 < b.1) : (insertKey k v es).Pairwise fun a b => a.1 < b.1 := by
  induction es with
  | nil => exact List.pairwise_singleton _ _
  | cons d es ih =>
    obtain ⟨hd, hes⟩ := List.pairwise_cons.1 h
    rw [insertKey]
    split_ifs with hlt heq
    · refine List.pairwise_cons.2 ⟨fun e he => ?_, h⟩
      rcases List.mem_cons.1 he with rfl | he
      · exact hlt
      · exact lt_trans hlt (hd e he)
    · exact List.pairwise_cons.2 ⟨fun e he => heq ▸ hd e he, hes⟩
    · refine List.pairwise_cons.2 ⟨fun e he => ?_, ih hes⟩
      rcases mem_insertKey he with rfl | he
      · exact lt_of_le_of_ne (not_lt.1 hlt) heq
      · exact hd e he

theorem lookup_eq_some_iff [BEq K] [LawfulBEq K] {k : K} {v : V} {es : List (K × V)}
    (h : es.Pairwise fun a b => a.1 < b.1) : es.lookup k = some v ↔ (k, v) ∈ es := by
  induction es with
  | nil => simp
  | cons d es ih =>
    obtain ⟨hd, hes⟩ := List.pairwise_cons.1 h
    rw [List.lookup_cons, List.mem_cons]
    by_cases hk : k = d.1
    · have hnot : (k, v) ∉ es := by
        intro hmem
        have hlt := hd (k, v) hmem
        exact lt_irrefl k (hk ▸ hlt)
      subst hk
      simp only [BEq.rfl, Option.some_inj, hnot, or_false, Prod.ext_iff, true_and]
      exact eq_comm
    · rw [beq_false_of_ne hk]
      simp only [ih hes, Prod.ext_iff, hk, false_and, false_or]

theorem mem_insertKey_iff {k : K} {v : V} {es : List (K × V)}
    (h : es.Pairwise fun a b => a.1 < b.1) (e : K × V) :
    e ∈ insertKey k v es ↔ e = (k, v) ∨ e ∈ es ∧ e.1 ≠ k := by
  obtain ⟨k', v'⟩ := e
  rw [← lookup_eq_some_iff (insertKey_sorted h), lookup_insertKey, ← lookup_eq_some_iff h]
  by_cases hk : k' = k
  · simp [hk, eq_comm]
  · simp [hk]

theorem sorted_nodup {es : List (K × V)} (h : es.Pairwise fun a b => a.1 < b.1) : es.Nodup := by
  apply List.Pairwise.imp _ h
  rintro a b hlt rfl
  exact lt_irrefl _ hlt

/-! ## Removing -/

def eraseKey (k : K) (es : List (K × V)) : List (K × V) := es.filter (·.1 ≠ k)

theorem eraseKey_sorted {k : K} {es : List (K × V)} (h : es.Pairwise fun a b => a.1 < b.1) :
    (eraseKey k es).Pairwise fun a b => a.1 < b.1 := h.filter _

theorem mem_eraseKey {k : K} {es : List (K × V)} {e : K × V} :
    e ∈ eraseKey k es ↔ e ∈ es ∧ e.1 ≠ k := by
  rw [eraseKey, List.mem_filter, decide_eq_true_eq]

/-- Removes the keys one after the other; gives the values of those that were there. -/
def removeKeys : List K → List (K × V) → List (K × V) × List V
  | [], es => (es, [])
  | k :: ks, es =>
    match es.lookup k with
    | none => removeKeys ks es
    | some v => ((removeKeys ks (eraseKey k es)).1, v :: (removeKeys ks (eraseKey k es)).2)

theorem removeKeys_gives (ks : List K) {es : List (K × V)}
    (h : es.Pairwise fun a b => a.1 < b.1) :
    (removeKeys ks es).1 = es.filter (·.1 ∉ ks) ∧
      (removeKeys ks es).2.Perm ((es.filter (·.1 ∈ ks)).map Prod.snd) := by
  induction ks generalizing es with
  | nil => simp [removeKeys]
  | cons k ks ih =>
    cases hk : es.lookup k with
    | none =>
      have hnot : ∀ e ∈ es, e.1 ≠ k := by
        intro e he heq
        have hsome := (lookup_eq_some_iff h).2 (show (k, e.2) ∈ es from heq ▸ he)
        rw [hk] at hsome
        exact absurd hsome (by simp)
      obtain ⟨hfst, hsnd⟩ := ih h
      have hout : es.filter (·.1 ∉ k :: ks) = es.filter (·.1 ∉ ks) :=
        List.filter_congr fun e he => by simp [hnot e he]
      have hin : es.filter (·.1 ∈ k :: ks) = es.filter (·.1 ∈ ks) :=
        List.filter_congr fun e he => by simp [hnot e he]
      rw [removeKeys, hk, hout, hin]
      exact ⟨hfst, hsnd⟩
    | some v =>
      obtain ⟨hfst, hsnd⟩ := ih (eraseKey_sorted (k := k) h)
      rw [removeKeys, hk]
      refine ⟨?_, ?_⟩
      · dsimp only
        rw [hfst, eraseKey, List.filter_filter]
        exact List.filter_congr fun e _ => by simp [Bool.and_comm]
      · have hmem := (lookup_eq_some_iff h).1 hk
        have hperm : (es.filter (·.1 ∈ k :: ks)).Perm
            ((k, v) :: (eraseKey k es).filter (·.1 ∈ ks)) := by
          have hnodup : ((k, v) :: (eraseKey k es).filter (·.1 ∈ ks)).Nodup := by
            refine List.nodup_cons.2 ⟨fun hin => ?_, ((sorted_nodup h).filter _).filter _⟩
            exact (mem_eraseKey.1 (List.mem_filter.1 hin).1).2 rfl
          rw [List.perm_ext_iff_of_nodup ((sorted_nodup h).filter _) hnodup]
          rintro ⟨k', v'⟩
          simp only [List.mem_filter, List.mem_cons, mem_eraseKey, decide_eq_true_eq, Prod.mk.injEq]
          by_cases hkk : k' = k
          · subst hkk
            have hval : (k', v') ∈ es ↔ v' = v := by
              rw [← lookup_eq_some_iff h, hk, Option.some_inj, eq_comm]
            simp [hval]
          · simp [hkk]
        exact (hsnd.cons v).trans (hperm.map Prod.snd).symm

theorem lookup_eraseKey (k k' : K) (es : List (K × V)) :
    (eraseKey k es).lookup k' = if k' = k then none else es.lookup k' := by
  induction es with
  | nil => simp [eraseKey]
  | cons d es ih =>
    rw [eraseKey] at ih ⊢
    by_cases hd : d.1 = k
    · rw [List.filter_cons_of_neg (by simp [hd]), ih, List.lookup_cons]
      by_cases hk : k' = k
      · rw [if_pos hk, if_pos hk]
      · rw [if_neg hk, if_neg hk, beq_false_of_ne (hd ▸ hk)]
    · rw [List.filter_cons_of_pos (by simp [hd]), List.lookup_cons, List.lookup_cons, ih]
      by_cases hk : k' = d.1
      · subst hk
        simp [hd]
      · rw [beq_false_of_ne hk]

/-! ## Maps -/

structure OrderedMap (K V : Type*) [LinearOrder K] where
  entries : List (K × V) := []
  sorted : entries.Pairwise fun a b => a.1 < b.1 := by simp

namespace OrderedMap

def get (m : OrderedMap K V) (k : K) : Option V := m.entries.lookup k

def keys (m : OrderedMap K V) : List K := m.entries.map Prod.fst

def values (m : OrderedMap K V) : List V := m.entries.map Prod.snd

def insert (m : OrderedMap K V) (k : K) (v : V) : OrderedMap K V where
  entries := insertKey k v m.entries
  sorted := insertKey_sorted m.sorted

def erase (m : OrderedMap K V) (k : K) : OrderedMap K V where
  entries := eraseKey k m.entries
  sorted := eraseKey_sorted m.sorted

/-- Of several values of a key the last one stays. -/
def ofList (l : List (K × V)) : OrderedMap K V := l.foldl (fun m e => m.insert e.1 e.2) {}

variable {m : OrderedMap K V}

theorem get_insert (k k' : K) (v : V) :
    (m.insert k v).get k' = if k' = k then some v else m.get k' := lookup_insertKey _ _ _ _

theorem get_erase (k k' : K) : (m.erase k).get k' = if k' = k then none else m.get k' :=
  lookup_eraseKey _ _ _

theorem get_eq_some {k : K} {v : V} : m.get k = some v ↔ (k, v) ∈ m.entries :=
  lookup_eq_some_iff m.sorted

theorem mem_keys {k : K} : k ∈ m.keys ↔ ∃ v, m.get k = some v := by
  simp [keys, get_eq_some]

theorem mem_values {v : V} : v ∈ m.values ↔ ∃ k, m.get k = some v := by
  simp [values, get_eq_some]

theorem mem_keys_insert {k k' : K} {v : V} :
    k' ∈ (m.insert k v).keys ↔ k' = k ∨ k' ∈ m.keys := by
  rw [mem_keys, mem_keys, get_insert]
  by_cases hk : k' = k
  · simp [hk]
  · simp [hk]

theorem mem_keys_erase {k k' : K} : k' ∈ (m.erase k).keys ↔ k' ≠ k ∧ k' ∈ m.keys := by
  rw [mem_keys, mem_keys, get_erase]
  by_cases hk : k' = k
  · simp [hk]
  · simp [hk]

theorem mem_values_insert {k : K} {v w : V} (h : w ∈ (m.insert k v).values) :
    w = v ∨ w ∈ m.values := by
  obtain ⟨k', hk'⟩ := mem_values.1 h
  rw [get_insert] at hk'
  split_ifs at hk'
  · exact Or.inl (Option.some.inj hk').symm
  · exact Or.inr (mem_values.2 ⟨k', hk'⟩)

/-- What an insertion pushes out is the old value of the key. -/
theorem mem_values_of_insert {k : K} {v w : V} (h : w ∈ m.values) :
    w ∈ (m.insert k v).values ∨ m.get k = some w := by
  obtain ⟨k', hk'⟩ := mem_values.1 h
  by_cases hk : k' = k
  · exact Or.inr (hk ▸ hk')
  · exact Or.inl (mem_values.2 ⟨k', by rw [get_insert, if_neg hk, hk']⟩)

theorem mem_values_erase {k : K} {w : V} (h : w ∈ (m.erase k).values) : w ∈ m.values := by
  obtain ⟨k', hk'⟩ := mem_values.1 h
  rw [get_erase] at hk'
  split_ifs at hk'
  exact mem_values.2 ⟨k', hk'⟩

theorem mem_values_of_erase {k : K} {w : V} (h : w ∈ m.values) :
    w ∈ (m.erase k).values ∨ m.get k = some w := by
  obtain ⟨k', hk'⟩ := mem_values.1 h
  by_cases hk : k' = k
  · exact Or.inr (hk ▸ hk')
  · exact Or.inl (mem_values.2 ⟨k', by rw [get_erase, if_neg hk, hk']⟩)

theorem ofList_concat (l : List (K × V)) (e : K × V) :
    ofList (l ++ [e]) = (ofList l).insert e.1 e.2 := by
  rw [ofList, ofList, List.foldl_append, List.foldl_cons, List.foldl_nil]

theorem mem_of_get_ofList {l : List (K × V)} {k : K} {v : V} (h : (ofList l).get k = some v) :
    (k, v) ∈ l := by
  induction l using List.reverseRecOn with
  | nil => exact absurd h (by simp [ofList, get])
  | append_singleton l e ih =>
    rw [ofList_concat, get_insert] at h
    split_ifs at h with hk
    · obtain rfl := Option.some.inj h
      exact List.mem_append_right _ (by simp [hk])
    · exact List.mem_append_left _ (ih h)

theorem get_ofList {l : List (K × V)} {k : K} {v : V} (h : (k, v) ∈ l)
    (hsame : ∀ w, (k, w) ∈ l → w = v) : (ofList l).get k = some v := by
  induction l using List.reverseRecOn with
  | nil => exact absurd h (by simp)
  | append_singleton l e ih =>
    rw [ofList_concat, get_insert]
    split_ifs with hk
    · rw [hsame e.2 (List.mem_append_right _ (by simp [hk]))]
    · rcases List.mem_append.1 h with h | h
      · exact ih h fun w hw => hsame w (List.mem_append_left _ hw)
      · exact absurd (congrArg Prod.fst (List.mem_singleton.1 h)) hk

end OrderedMap

end Sunpack.Lib
