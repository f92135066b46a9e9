import Sunpack.WatchStore.Record

/-!
# Who owns an identity

Recovery deletes what it finds under a recorded identity, so each identity belongs to a committed root
or to the output of an active task, and each such output has one. `Start`, `Finish` and `Promote` keep
this. `Relocate` keeps it where moving the paths merges nothing: it drops what `retain_root` says of
the roots that were absorbed, lets one of two tasks of the same name win, and moves identities one
after the other, onto one that is still to be moved if the destination lies in the source.
-/

namespace Sunpack.WatchStore

open Lib

/-- The path is its own key. -/
def KeyForm (W : WatchPaths) (path : Text) : Prop := W.pathKey path = path

instance (W : WatchPaths) (path : Text) : Decidable (KeyForm W path) :=
  inferInstanceAs (Decidable (_ = _))

/-- All paths of the change are their own keys. -/
def OutputChange.InKeyForm (W : WatchPaths) : OutputChange → Prop
  | .start task output _ => KeyForm W task ∧ KeyForm W output
  | .finish task output _ _ => KeyForm W task ∧ KeyForm W output
  | .relocate source destination _ => KeyForm W source ∧ KeyForm W destination
  | .promote destinations sources =>
    (∀ path ∈ destinations, KeyForm W path) ∧ ∀ path ∈ sources, KeyForm W path

instance (W : WatchPaths) : (change : OutputChange) → Decidable (change.InKeyForm W)
  | .start _ _ _ => inferInstanceAs (Decidable (_ ∧ _))
  | .finish _ _ _ _ => inferInstanceAs (Decidable (_ ∧ _))
  | .relocate _ _ _ => inferInstanceAs (Decidable (_ ∧ _))
  | .promote _ _ => inferInstanceAs (Decidable (_ ∧ _))

variable {W : WatchPaths}

/-- Owners and identities fit together; all paths are their own keys. -/
structure Consistent (roots : PathSet W) (active : List Text) (identities : OrderedMap Text Text) :
    Prop where
  roots_key : ∀ m ∈ roots.iter, KeyForm W m
  active_key : ∀ o ∈ active, KeyForm W o
  owner : ∀ k ∈ identities.keys, k ∈ roots.iter ∨ k ∈ active
  identity : ∀ o ∈ active, o ∈ identities.keys

def PendingRecord.IsConsistent (r : PendingRecord W) : Prop :=
  Consistent r.committedRoots r.activeOutputs.values r.outputIdentities

/-! ## Sets of roots -/

namespace PathSet

variable {s : PathSet W} {path m : Text}

theorem contains_iff (hs : ∀ m ∈ s.iter, KeyForm W m) (hpath : KeyForm W path) :
    s.contains path = true ↔ path ∈ s.iter := by
  rw [contains, containsKey_iff]
  constructor
  · rintro ⟨m, hm, heq⟩
    have hkey : W.pathKey m = m := hs m hm
    rw [hkey, hpath] at heq
    exact heq ▸ hm
  · intro hm
    exact ⟨path, hm, rfl⟩

theorem mem_removed : m ∈ (s.removeUnder path).2 ↔ m ∈ s.iter ∧ Within W m path := by
  rw [removeUnder_removed.mem_iff, List.mem_filter, decide_eq_true_eq]

theorem mem_of_removeUnder (path : Text) (h : m ∈ s.iter) :
    m ∈ (s.removeUnder path).1.iter ∨ m ∈ (s.removeUnder path).2 := by
  rw [mem_removeUnder, mem_removed]
  by_cases hwithin : Within W m path
  · exact Or.inr ⟨h, hwithin⟩
  · exact Or.inl ⟨h, hwithin⟩

/-- A member stays, or is returned. -/
theorem mem_of_retainRoot (path : Text) (h : m ∈ s.iter) :
    m ∈ (s.retainRoot path).1.iter ∨ m ∈ (s.retainRoot path).2 := by
  by_cases hcovers : s.covers path = true
  · rw [retainRoot, if_pos hcovers]
    exact Or.inl h
  · rw [mem_retainRoot (Bool.eq_false_iff.2 hcovers), retainRoot, if_neg hcovers]
    dsimp only
    rw [mem_removed]
    by_cases hwithin : Within W m path
    · exact Or.inr ⟨h, hwithin⟩
    · exact Or.inl (Or.inr ⟨h, hwithin⟩)

theorem mem_retainRoot_sub (h : m ∈ (s.retainRoot path).1.iter) : m = path ∨ m ∈ s.iter := by
  by_cases hcovers : s.covers path = true
  · rw [retainRoot, if_pos hcovers] at h
    exact Or.inr h
  · exact ((mem_retainRoot (Bool.eq_false_iff.2 hcovers)).1 h).imp_right And.left

end PathSet

/-! ## Start, Finish, Promote -/

theorem mem_dropUnowned {owned : Text → Bool} {paths : List Text} {ids : OrderedMap Text Text}
    {k : Text} : k ∈ (dropUnowned owned paths ids).keys ↔
      k ∈ ids.keys ∧ (owned k = true ∨ k ∉ paths) := by
  induction paths generalizing ids with
  | nil => simp [dropUnowned]
  | cons path paths ih =>
    rw [dropUnowned, List.foldl_cons]
    refine ih.trans ?_
    split_ifs with howned
    · by_cases hk : k = path
      · simp [hk, howned]
      · simp [hk]
    · rw [OrderedMap.mem_keys_erase]
      by_cases hk : k = path
      · simp [hk, howned]
      · simp [hk]

namespace PendingRecord

variable {r : PendingRecord W}

theorem mem_withoutOld {active : OrderedMap Text Text} {task output k : Text} :
    k ∈ (r.withoutOld active task output).keys ↔ k ∈ r.outputIdentities.keys ∧
      ¬ (r.activeOutputs.get task = some k ∧ k ≠ output ∧ r.committedRoots.contains k = false ∧
        k ∉ active.values) := by
  rw [withoutOld]
  cases r.activeOutputs.get task with
  | none => simp
  | some old =>
    dsimp only
    rw [Option.some_inj]
    by_cases hk : old = k
    · subst hk
      split_ifs with hdrop
      · simp [OrderedMap.mem_keys_erase, hdrop]
      · exact ⟨fun h => ⟨h, fun hd => hdrop hd.2⟩, And.left⟩
    · split_ifs
      · simp [OrderedMap.mem_keys_erase, hk, Ne.symm hk]
      · simp [hk]

theorem IsConsistent.start (h : r.IsConsistent) {task output identity : Text}
    (houtput : KeyForm W output) : (r.start task output identity).IsConsistent := by
  have hnew : output ∈ (r.activeOutputs.insert task output).values :=
    OrderedMap.mem_values.2 ⟨task, by rw [OrderedMap.get_insert, if_pos rfl]⟩
  show Consistent r.committedRoots (r.activeOutputs.insert task output).values
    ((r.withoutOld (r.activeOutputs.insert task output) task output).insert output identity)
  refine ⟨h.roots_key, fun o ho => ?_, fun k hk => ?_, fun o ho => ?_⟩
  · rcases OrderedMap.mem_values_insert ho with rfl | ho
    · exact houtput
    · exact h.active_key o ho
  · rcases OrderedMap.mem_keys_insert.1 hk with rfl | hk
    · exact Or.inr hnew
    · obtain ⟨hid, hkept⟩ := mem_withoutOld.1 hk
      rcases h.owner k hid with hroot | hactive
      · exact Or.inl hroot
      · rcases OrderedMap.mem_values_of_insert (k := task) (v := output) hactive with hstays | hwas
        · exact Or.inr hstays
        · -- the output that the task had before, which is still owned
          by_contra hnot
          rw [not_or] at hnot
          refine hkept ⟨hwas, ?_, ?_, hnot.2⟩
          · rintro rfl
            exact hnot.2 hnew
          · rw [Bool.eq_false_iff, ne_eq, PathSet.contains_iff h.roots_key (h.active_key k hactive)]
            exact hnot.1
  · rw [OrderedMap.mem_keys_insert, mem_withoutOld]
    rcases OrderedMap.mem_values_insert ho with rfl | hold
    · exact Or.inl rfl
    · exact Or.inr ⟨h.identity o hold, fun hdrop => hdrop.2.2.2 ho⟩

theorem mem_withIdentity {output k : Text} {identity : Option Text}
    (h : k ∈ (r.withIdentity output identity).keys) : k = output ∨ k ∈ r.outputIdentities.keys := by
  cases identity with
  | none => exact Or.inr h
  | some id => exact OrderedMap.mem_keys_insert.1 h

theorem mem_withIdentity_of_mem {output k : Text} {identity : Option Text}
    (h : k ∈ r.outputIdentities.keys) : k ∈ (r.withIdentity output identity).keys := by
  cases identity with
  | none => exact h
  | some id => exact OrderedMap.mem_keys_insert.2 (Or.inr h)

theorem IsConsistent.finish (h : r.IsConsistent) {task output : Text} {keep : Bool}
    {identity : Option Text} (houtput : KeyForm W output) :
    (r.finish task output keep identity).IsConsistent := by
  generalize hcommitted : (if keep then r.committedRoots.retainRoot output
    else r.committedRoots.removeUnder output) = committed
  have hlost : ∀ m ∈ r.committedRoots.iter, m ∈ committed.1.iter ∨ m ∈ committed.2 := by
    intro m hm
    rw [← hcommitted]
    split_ifs
    · exact PathSet.mem_of_retainRoot _ hm
    · exact PathSet.mem_of_removeUnder _ hm
  have hkeys : ∀ m ∈ committed.1.iter, KeyForm W m := by
    intro m hm
    rw [← hcommitted] at hm
    split_ifs at hm
    · rcases PathSet.mem_retainRoot_sub hm with rfl | hm
      · exact houtput
      · exact h.roots_key m hm
    · exact h.roots_key m (PathSet.mem_removeUnder.1 hm).1
  have hactive : ∀ o ∈ (r.activeOutputs.erase task).values, o ∈ r.activeOutputs.values :=
    fun o ho => OrderedMap.mem_values_erase ho
  have hresult : Consistent committed.1 (r.activeOutputs.erase task).values
      (dropUnowned (fun path => committed.1.contains path ||
          decide (path ∈ (r.activeOutputs.erase task).values))
        (committed.2 ++ (r.activeOutputs.get task).toList ++ [output])
        (r.withIdentity output identity)) := by
    refine ⟨hkeys, fun o ho => h.active_key o (hactive o ho), fun k hk => ?_, fun o ho => ?_⟩
    · obtain ⟨hk, howned⟩ := mem_dropUnowned.1 hk
      rw [Bool.or_eq_true, decide_eq_true_eq] at howned
      by_cases howner : k ∈ (r.activeOutputs.erase task).values
      · exact Or.inr howner
      · left
        have hform : KeyForm W k := by
          rcases mem_withIdentity hk with rfl | hold
          · exact houtput
          · rcases h.owner k hold with hroot | hout
            · exact h.roots_key k hroot
            · exact h.active_key k hout
        rcases howned with (hcontains | hin) | hlisted
        · exact (PathSet.contains_iff hkeys hform).1 hcontains
        · exact absurd hin howner
        · simp only [List.mem_append, List.mem_singleton, Option.mem_toList, not_or] at hlisted
          obtain ⟨⟨hremoved, hold⟩, hne⟩ := hlisted
          rcases h.owner k ((mem_withIdentity hk).resolve_left hne) with hroot | hout
          · exact (hlost k hroot).resolve_right hremoved
          · rcases OrderedMap.mem_values_of_erase (k := task) hout with hstays | hwas
            · exact absurd hstays howner
            · exact absurd hwas hold
    · rw [mem_dropUnowned]
      exact ⟨mem_withIdentity_of_mem (h.identity o (hactive o ho)), Or.inl (by simp [ho])⟩
  subst hcommitted
  exact hresult

theorem IsConsistent.promoteOutput {roots : PathSet W} {ids : OrderedMap Text Text}
    (h : Consistent roots r.activeOutputs.values ids) {output : Text}
    (houtput : output ∈ r.activeOutputs.values) (sourceKeys : List Text) :
    Consistent (r.promoteOutput sourceKeys (roots, ids) output).1 r.activeOutputs.values
      (r.promoteOutput sourceKeys (roots, ids) output).2 := by
  rw [PendingRecord.promoteOutput]
  dsimp only
  split_ifs
  · refine ⟨fun m hm => ?_, h.active_key, fun k hk => ?_, fun o ho => ?_⟩
    · rcases PathSet.mem_retainRoot_sub hm with rfl | hm
      · exact h.active_key m houtput
      · exact h.roots_key m hm
    · obtain ⟨hk, howned⟩ := mem_dropUnowned.1 hk
      rcases h.owner k hk with hroot | hactive
      · rcases PathSet.mem_of_retainRoot output hroot with hstays | hremoved
        · exact Or.inl hstays
        · rcases howned with howned | hnot
          · exact Or.inr (of_decide_eq_true howned)
          · exact absurd hremoved hnot
      · exact Or.inr hactive
    · rw [mem_dropUnowned]
      exact ⟨h.identity o ho, Or.inl (decide_eq_true ho)⟩
  · exact h

theorem IsConsistent.promote (h : r.IsConsistent) (destinations sources : List Text) :
    (r.promote destinations sources).IsConsistent := by
  have hfold (outputs : List Text) (hsub : ∀ o ∈ outputs, o ∈ r.activeOutputs.values)
      (state : PathSet W × OrderedMap Text Text)
      (hstate : Consistent state.1 r.activeOutputs.values state.2) :
      Consistent (outputs.foldl (r.promoteOutput (sources.map W.pathKey)) state).1
        r.activeOutputs.values
        (outputs.foldl (r.promoteOutput (sources.map W.pathKey)) state).2 := by
    induction outputs generalizing state with
    | nil => exact hstate
    | cons output outputs ih =>
      exact ih (fun o ho => hsub o (List.mem_cons_of_mem _ ho)) _
        (IsConsistent.promoteOutput hstate (hsub output List.mem_cons_self) _)
  exact hfold _ (fun _ ho => ho) _ h

/-! ## Relocate -/

/-- Moving the paths merges nothing: they are keys again, tasks of one name have one output, no root
comes to lie under another one, and no identity takes the place of one that is to be moved. -/
structure Separates (r : PendingRecord W) (source destination : Text) : Prop where
  keys : ∀ path ∈ r.committedRoots.iter ++ r.activeOutputs.values,
    KeyForm W (relocated W source destination path)
  tasks : ∀ e ∈ r.activeOutputs.entries, ∀ e' ∈ r.activeOutputs.entries,
    relocated W source destination e.1 = relocated W source destination e'.1 →
      relocated W source destination e.2 = relocated W source destination e'.2
  roots : ∀ m ∈ r.committedRoots.iter, ∀ m' ∈ r.committedRoots.iter,
    isPathUnder (W.pathKey (relocated W source destination m))
        (W.pathKey (relocated W source destination m')) = true →
      relocated W source destination m = relocated W source destination m'
  identities : ∀ k ∈ r.outputIdentities.keys, Within W k source →
    relocated W source destination k ∈ r.outputIdentities.keys →
      Within W (relocated W source destination k) source → relocated W source destination k = k

theorem relocated_of_not_within {source destination path : Text} (h : ¬ Within W path source) :
    relocated W source destination path = path := by
  rw [Within, not_or] at h
  rw [relocated, if_neg h.1, if_neg h.2]

/-- Retaining paths that lie apart, from each other and from the members, adds them all. -/
theorem mem_foldl_retainRoot {f : Text → Text} (paths : List Text) {roots : PathSet W} {m : Text}
    (hkey : ∀ p, p ∈ roots.iter ∨ p ∈ paths.map f → KeyForm W p)
    (hapart : ∀ p q, (p ∈ roots.iter ∨ p ∈ paths.map f) → (q ∈ roots.iter ∨ q ∈ paths.map f) →
      isPathUnder (W.pathKey p) (W.pathKey q) = true → p = q) :
    m ∈ (paths.foldl (fun s path => (s.retainRoot (f path)).1) roots).iter ↔
      m ∈ roots.iter ∨ m ∈ paths.map f := by
  induction paths generalizing roots with
  | nil => simp
  | cons path paths ih =>
    have hfront : f path ∈ (path :: paths).map f := List.mem_map_of_mem List.mem_cons_self
    have hsame {p q : Text} (hp : p ∈ roots.iter ∨ p ∈ (path :: paths).map f)
        (hq : q ∈ roots.iter ∨ q ∈ (path :: paths).map f) (hwithin : Within W p q) : p = q := by
      rcases hwithin with heq | hunder
      · exact (hkey p hp).symm.trans (heq.trans (hkey q hq))
      · exact hapart p q hp hq hunder
    have hstep : ∀ p, p ∈ (roots.retainRoot (f path)).1.iter ↔ p ∈ roots.iter ∨ p = f path := by
      intro p
      by_cases hcovers : roots.covers (f path) = true
      · obtain ⟨q, hq, hwithin⟩ := PathSet.within_of_covers hcovers
        have hin : f path ∈ roots.iter := (hsame (Or.inr hfront) (Or.inl hq) hwithin).symm ▸ hq
        rw [PathSet.retainRoot, if_pos hcovers]
        exact ⟨Or.inl, fun h => h.elim id fun heq => heq ▸ hin⟩
      · rw [PathSet.mem_retainRoot (Bool.eq_false_iff.2 hcovers), or_comm]
        constructor
        · rintro (⟨hp, _⟩ | heq)
          · exact Or.inl hp
          · exact Or.inr heq
        · rintro (hp | heq)
          · by_cases hwithin : Within W p (f path)
            · exact Or.inr (hsame (Or.inl hp) (Or.inr hfront) hwithin)
            · exact Or.inl ⟨hp, hwithin⟩
          · exact Or.inr heq
    have hsub : ∀ p, p ∈ (roots.retainRoot (f path)).1.iter ∨ p ∈ paths.map f →
        p ∈ roots.iter ∨ p ∈ (path :: paths).map f := by
      rintro p (hp | hp)
      · rcases (hstep p).1 hp with hp | rfl
        · exact Or.inl hp
        · exact Or.inr hfront
      · exact Or.inr (by rw [List.map_cons]; exact List.mem_cons_of_mem _ hp)
    rw [List.foldl_cons, ih (fun p hp => hkey p (hsub p hp))
      (fun p q hp hq => hapart p q (hsub p hp) (hsub q hq)), hstep, List.map_cons, List.mem_cons,
      or_assoc]

theorem mem_moveIdentity {f : Text → Text} {ids : OrderedMap Text Text} {path k : Text} :
    k ∈ (moveIdentity f ids path).keys ↔
      (k ∈ ids.keys ∧ k ≠ path) ∨ path ∈ ids.keys ∧ k = f path := by
  rw [moveIdentity]
  cases hget : ids.get path with
  | none =>
    have hnot : path ∉ ids.keys := by simp [OrderedMap.mem_keys, hget]
    simp only [hnot, false_and, or_false]
    exact ⟨fun hk => ⟨hk, fun heq => hnot (heq ▸ hk)⟩, And.left⟩
  | some id =>
    have hin : path ∈ ids.keys := OrderedMap.mem_keys.2 ⟨id, hget⟩
    dsimp only
    rw [OrderedMap.mem_keys_insert, OrderedMap.mem_keys_erase]
    simp only [hin, true_and]
    rw [or_comm, and_comm]

/-- An identity stays unless it is moved, and then it is the new one of a moved path. -/
theorem mem_of_foldl_moveIdentity {f : Text → Text} (paths : List Text)
    {ids : OrderedMap Text Text} {k : Text} (h : k ∈ (paths.foldl (moveIdentity f) ids).keys) :
    (k ∈ ids.keys ∧ k ∉ paths) ∨ ∃ path ∈ paths, k = f path := by
  induction paths generalizing ids with
  | nil => exact Or.inl ⟨h, by simp⟩
  | cons path paths ih =>
    rcases ih h with ⟨hk, hnot⟩ | ⟨p, hp, heq⟩
    · rcases mem_moveIdentity.1 hk with ⟨hold, hne⟩ | ⟨_, heq⟩
      · exact Or.inl ⟨hold, by simp [hne, hnot]⟩
      · exact Or.inr ⟨path, List.mem_cons_self, heq⟩
    · exact Or.inr ⟨p, List.mem_cons_of_mem _ hp, heq⟩

theorem mem_foldl_moveIdentity_of_fixed {f : Text → Text} (paths : List Text)
    {ids : OrderedMap Text Text} {k : Text} (hk : k ∈ ids.keys) (hfixed : k ∈ paths → f k = k) :
    k ∈ (paths.foldl (moveIdentity f) ids).keys := by
  induction paths generalizing ids with
  | nil => exact hk
  | cons path paths ih =>
    refine ih (mem_moveIdentity.2 ?_) fun hin => hfixed (List.mem_cons_of_mem _ hin)
    by_cases heq : k = path
    · subst heq
      exact Or.inr ⟨hk, (hfixed List.mem_cons_self).symm⟩
    · exact Or.inl ⟨hk, heq⟩

/-- A moved identity is at its new place in the end if no other one is moved from there. -/
theorem mem_foldl_moveIdentity {f : Text → Text} (paths : List Text) {ids : OrderedMap Text Text}
    {k : Text} (hk : k ∈ ids.keys) (hin : k ∈ paths) (hfixed : f k ∈ paths → f k = k) :
    f k ∈ (paths.foldl (moveIdentity f) ids).keys := by
  induction paths generalizing ids with
  | nil => exact absurd hin (by simp)
  | cons path paths ih =>
    rw [List.foldl_cons]
    by_cases heq : k = path
    · subst heq
      refine mem_foldl_moveIdentity_of_fixed paths (mem_moveIdentity.2 (Or.inr ⟨hk, rfl⟩)) ?_
      intro hlater
      have hfk := hfixed (List.mem_cons_of_mem _ hlater)
      rw [hfk]
      exact hfk
    · refine ih (mem_moveIdentity.2 (Or.inl ⟨hk, heq⟩)) ((List.mem_cons.1 hin).resolve_left heq) ?_
      exact fun hlater => hfixed (List.mem_cons_of_mem _ hlater)

theorem mem_identitiesUnder {ids : OrderedMap Text Text} {source k : Text}
    (hsource : KeyForm W source) (hk : k ∈ ids.keys) (hform : KeyForm W k) :
    k ∈ identitiesUnder ids source ↔ Within W k source := by
  have hrange := range_prefix (trimEnd '\\' source ++ ['\\']) ids.sorted
  have hin : k ∈ (ids.entries.filter fun e => trimEnd '\\' source ++ ['\\'] <+: e.1).map Prod.fst ↔
      isPathUnder k source = true := by
    rw [isPathUnder_iff, under_iff_prefix, List.mem_map]
    constructor
    · rintro ⟨e, he, rfl⟩
      exact of_decide_eq_true (List.mem_filter.1 he).2
    · intro hprefix
      obtain ⟨v, hv⟩ := OrderedMap.mem_keys.1 hk
      exact ⟨_, List.mem_filter.2 ⟨OrderedMap.get_eq_some.1 hv, decide_eq_true hprefix⟩, rfl⟩
  have hkk : W.pathKey k = k := hform
  have hss : W.pathKey source = source := hsource
  rw [identitiesUnder, hrange, Within, hkk, hss]
  by_cases hown : (ids.get source).isSome = true
  · rw [if_pos hown, List.mem_append, List.mem_singleton, hin, or_comm]
  · rw [if_neg hown, hin]
    refine ⟨Or.inr, fun h => h.resolve_left ?_⟩
    rintro rfl
    obtain ⟨v, hv⟩ := OrderedMap.mem_keys.1 hk
    exact hown (by rw [hv, Option.isSome_some])

theorem mem_identities_of_mem_under {ids : OrderedMap Text Text} {source k : Text}
    (h : k ∈ identitiesUnder ids source) : k ∈ ids.keys := by
  have hrange := range_prefix (trimEnd '\\' source ++ ['\\']) ids.sorted
  rw [identitiesUnder, hrange] at h
  have hmap : ∀ p : Text × Text → Bool, k ∈ (ids.entries.filter p).map Prod.fst → k ∈ ids.keys := by
    intro p hp
    obtain ⟨e, he, rfl⟩ := List.mem_map.1 hp
    exact List.mem_map_of_mem (List.mem_filter.1 he).1
  split_ifs at h with hown
  · rcases List.mem_append.1 h with h | h
    · exact hmap _ h
    · rw [List.mem_singleton.1 h]
      exact OrderedMap.mem_keys.2 (Option.isSome_iff_exists.1 hown)
  · exact hmap _ h

/-- The outputs of the renamed tasks are the renamed outputs. -/
theorem mem_renamed {f : Text → Text} {active : OrderedMap Text Text}
    (htasks : ∀ e ∈ active.entries, ∀ e' ∈ active.entries, f e.1 = f e'.1 → f e.2 = f e'.2)
    {v : Text} :
    v ∈ (OrderedMap.ofList (active.entries.map fun e => (f e.1, f e.2))).values ↔
      ∃ o ∈ active.values, f o = v := by
  constructor
  · intro hv
    obtain ⟨k, hk⟩ := OrderedMap.mem_values.1 hv
    obtain ⟨e, he, heq⟩ := List.mem_map.1 (OrderedMap.mem_of_get_ofList hk)
    exact ⟨e.2, List.mem_map_of_mem he, (Prod.mk.inj heq).2⟩
  · rintro ⟨o, ho, rfl⟩
    obtain ⟨e, he, rfl⟩ := List.mem_map.1 ho
    refine OrderedMap.mem_values.2 ⟨f e.1, OrderedMap.get_ofList (List.mem_map_of_mem he) ?_⟩
    intro w hw
    obtain ⟨e', he', heq⟩ := List.mem_map.1 hw
    obtain ⟨hname, rfl⟩ := Prod.mk.inj heq
    exact htasks e' he' e he hname

/-- The roots after a move that separates them are the moved roots. -/
theorem mem_relocatedRoots {source destination : Text}
    (hseparates : r.Separates source destination) {m : Text} :
    m ∈ ((r.committedRoots.removeUnder source).2.foldl
        (fun s path => (s.retainRoot (relocated W source destination path)).1)
        (r.committedRoots.removeUnder source).1).iter ↔
      ∃ m₀ ∈ r.committedRoots.iter, relocated W source destination m₀ = m := by
  have hall : ∀ p, p ∈ (r.committedRoots.removeUnder source).1.iter ∨
      p ∈ (r.committedRoots.removeUnder source).2.map (relocated W source destination) ↔
      ∃ m₀ ∈ r.committedRoots.iter, relocated W source destination m₀ = p := by
    intro p
    rw [PathSet.mem_removeUnder, List.mem_map]
    constructor
    · rintro (⟨hp, hnot⟩ | ⟨m₀, hm₀, rfl⟩)
      · exact ⟨p, hp, relocated_of_not_within hnot⟩
      · exact ⟨m₀, (PathSet.mem_removed.1 hm₀).1, rfl⟩
    · rintro ⟨m₀, hm₀, rfl⟩
      by_cases hwithin : Within W m₀ source
      · exact Or.inr ⟨m₀, PathSet.mem_removed.2 ⟨hm₀, hwithin⟩, rfl⟩
      · rw [relocated_of_not_within hwithin]
        exact Or.inl ⟨hm₀, hwithin⟩
  rw [mem_foldl_retainRoot]
  · exact hall m
  · intro p hp
    obtain ⟨m₀, hm₀, rfl⟩ := (hall p).1 hp
    exact hseparates.keys m₀ (List.mem_append_left _ hm₀)
  · intro p q hp hq
    obtain ⟨m₀, hm₀, rfl⟩ := (hall p).1 hp
    obtain ⟨m₁, hm₁, rfl⟩ := (hall q).1 hq
    exact hseparates.roots m₀ hm₀ m₁ hm₁

theorem IsConsistent.relocate (h : r.IsConsistent) {source destination identity : Text}
    (hsource : KeyForm W source) (hdestination : KeyForm W destination)
    (hseparates : r.Separates source destination) :
    (r.relocate source destination identity).IsConsistent := by
  have hroots {m : Text} := mem_relocatedRoots hseparates (m := m)
  have houtputs {v : Text} := mem_renamed hseparates.tasks (v := v)
  generalize hr : (r.committedRoots.removeUnder source).2.foldl
    (fun s path => (s.retainRoot (relocated W source destination path)).1)
    (r.committedRoots.removeUnder source).1 = roots at hroots
  generalize ha : OrderedMap.ofList (r.activeOutputs.entries.map fun e =>
    (relocated W source destination e.1, relocated W source destination e.2)) = active at houtputs
  generalize hi : (identitiesUnder r.outputIdentities source).foldl
    (moveIdentity (relocated W source destination)) r.outputIdentities = ids
  have hform : ∀ k ∈ r.outputIdentities.keys, KeyForm W k := by
    intro k hk
    rcases h.owner k hk with hroot | hactive
    · exact h.roots_key k hroot
    · exact h.active_key k hactive
  have hmoved {k : Text} (hk : k ∈ r.outputIdentities.keys) :=
    mem_identitiesUnder hsource hk (hform k hk)
  -- the owner of an identity moves with it
  have howner : ∀ k ∈ ids.keys, k ∈ roots.iter ∨ k ∈ active.values := by
    intro k hk
    rw [hroots, houtputs]
    obtain ⟨k₀, hk₀, rfl⟩ : ∃ k₀ ∈ r.outputIdentities.keys,
        relocated W source destination k₀ = k := by
      rw [← hi] at hk
      rcases mem_of_foldl_moveIdentity _ hk with ⟨hold, hnot⟩ | ⟨k₀, hk₀, rfl⟩
      · exact ⟨k, hold, relocated_of_not_within fun hwithin => hnot ((hmoved hold).2 hwithin)⟩
      · exact ⟨k₀, mem_identities_of_mem_under hk₀, rfl⟩
    exact (h.owner k₀ hk₀).imp (fun hroot => ⟨k₀, hroot, rfl⟩) fun hactive => ⟨k₀, hactive, rfl⟩
  have hidentity : ∀ o ∈ active.values, o ∈ ids.keys := by
    intro o ho
    obtain ⟨o₀, ho₀, rfl⟩ := houtputs.1 ho
    have hid := h.identity o₀ ho₀
    rw [← hi]
    by_cases hwithin : Within W o₀ source
    · refine mem_foldl_moveIdentity _ hid ((hmoved hid).2 hwithin) fun hagain => ?_
      have hin := mem_identities_of_mem_under hagain
      exact hseparates.identities o₀ hid hwithin hin ((hmoved hin).1 hagain)
    · rw [relocated_of_not_within hwithin]
      exact mem_foldl_moveIdentity_of_fixed _ hid fun _ => relocated_of_not_within hwithin
  have hrootsKey : ∀ m ∈ roots.iter, KeyForm W m := by
    intro m hm
    obtain ⟨m₀, hm₀, rfl⟩ := hroots.1 hm
    exact hseparates.keys m₀ (List.mem_append_left _ hm₀)
  have hactiveKey : ∀ o ∈ active.values, KeyForm W o := by
    intro o ho
    obtain ⟨o₀, ho₀, rfl⟩ := houtputs.1 ho
    exact hseparates.keys o₀ (List.mem_append_right _ ho₀)
  have hresult : Consistent roots active.values
      (if roots.contains destination || decide (destination ∈ active.values) then
        ids.insert destination identity else ids) := by
    split_ifs with hdest
    · refine ⟨hrootsKey, hactiveKey, fun k hk => ?_, fun o ho => ?_⟩
      · rcases OrderedMap.mem_keys_insert.1 hk with rfl | hk
        · rw [Bool.or_eq_true, decide_eq_true_eq, PathSet.contains_iff hrootsKey hdestination]
            at hdest
          exact hdest
        · exact howner k hk
      · exact OrderedMap.mem_keys_insert.2 (Or.inr (hidentity o ho))
    · exact ⟨hrootsKey, hactiveKey, howner, hidentity⟩
  subst hr ha hi
  exact hresult

/-! ## Runs -/

/-- The condition on a change: a move has to keep the paths apart. -/
def Fits (r : PendingRecord W) : OutputChange → Prop
  | .relocate source destination _ => r.Separates source destination
  | _ => True

/-- Every change of the run fits the record it meets. -/
def Fitting (r : PendingRecord W) : List OutputChange → Prop
  | [] => True
  | change :: changes => r.Fits change ∧ (r.changeOutput change).Fitting changes

theorem IsConsistent.changeOutput (h : r.IsConsistent) {change : OutputChange}
    (hkeys : change.InKeyForm W) (hfits : r.Fits change) :
    (r.changeOutput change).IsConsistent := by
  cases change with
  | start task output identity => exact h.start hkeys.2
  | finish task output keep identity => exact h.finish hkeys.2
  | relocate source destination identity => exact h.relocate hkeys.1 hkeys.2 hfits
  | promote destinations sources => exact h.promote destinations sources

theorem IsConsistent.empty (path : Text) : ({ path := path } : PendingRecord W).IsConsistent where
  roots_key m hm := absurd hm (by simp [PathSet.iter])
  active_key o ho := absurd ho (by simp [OrderedMap.values])
  owner k hk := absurd hk (by simp [OrderedMap.keys])
  identity o ho := absurd ho (by simp [OrderedMap.values])

theorem IsConsistent.foldl (changes : List OutputChange) (h : r.IsConsistent)
    (hkeys : ∀ change ∈ changes, change.InKeyForm W) (hfits : r.Fitting changes) :
    (changes.foldl PendingRecord.changeOutput r).IsConsistent := by
  induction changes generalizing r with
  | nil => exact h
  | cons change changes ih =>
    exact ih (h.changeOutput (hkeys change List.mem_cons_self) hfits.1)
      (fun c hc => hkeys c (List.mem_cons_of_mem _ hc)) hfits.2

/-- From an empty record on, each identity is that of a committed root or of an active output, and each
active output has one, in every run whose moves keep the paths apart. -/
theorem identities_owned (W : WatchPaths) (path : Text) (changes : List OutputChange)
    (hkeys : ∀ change ∈ changes, change.InKeyForm W)
    (hfits : ({ path := path } : PendingRecord W).Fitting changes) :
    let r := changes.foldl PendingRecord.changeOutput ({ path := path } : PendingRecord W)
    (∀ k ∈ r.outputIdentities.keys, k ∈ r.committedRoots.iter ∨ k ∈ r.activeOutputs.values) ∧
      ∀ o ∈ r.activeOutputs.values, o ∈ r.outputIdentities.keys := by
  have h := (IsConsistent.empty path).foldl changes hkeys hfits
  exact ⟨h.owner, h.identity⟩

/-- A finished output and an active one move with their folder. -/
theorem identities_owned_of_move :
    let W : WatchPaths := ⟨.asciiOnly, id⟩
    let changes : List OutputChange :=
      [.start "c:\\in\\1".toList "c:\\x\\a".toList "1".toList,
        .finish "c:\\in\\1".toList "c:\\x\\a".toList true none,
        .start "c:\\in\\2".toList "c:\\x\\b".toList "2".toList,
        .relocate "c:\\x".toList "d:\\x".toList "3".toList]
    let r := changes.foldl PendingRecord.changeOutput
      ({ path := "c:\\in".toList } : PendingRecord W)
    (∀ k ∈ r.outputIdentities.keys, k ∈ r.committedRoots.iter ∨ k ∈ r.activeOutputs.values) ∧
      ∀ o ∈ r.activeOutputs.values, o ∈ r.outputIdentities.keys :=
  identities_owned _ _ _ (by decide)
    ⟨trivial, trivial, trivial, ⟨by decide, by decide, by decide, by decide⟩, trivial⟩

/-- A folder with a root is moved into another root: the root is absorbed, and its identity stays with
no owner. -/
theorem absorbed_root_keeps_identity :
    let W : WatchPaths := ⟨.asciiOnly, id⟩
    let changes : List OutputChange :=
      [.start "c:\\in\\1".toList "c:\\x".toList "1".toList,
        .finish "c:\\in\\1".toList "c:\\x".toList true none,
        .start "c:\\in\\2".toList "c:\\y".toList "2".toList,
        .finish "c:\\in\\2".toList "c:\\y".toList true none,
        .relocate "c:\\x".toList "c:\\y\\x".toList "1".toList]
    let r := changes.foldl PendingRecord.changeOutput
      ({ path := "c:\\in".toList } : PendingRecord W)
    (∀ change ∈ changes, change.InKeyForm W) ∧ "c:\\y\\x".toList ∈ r.outputIdentities.keys ∧
      r.committedRoots.iter = ["c:\\y".toList] ∧ r.activeOutputs.values = [] ∧
      ¬ ∀ k ∈ r.outputIdentities.keys, k ∈ r.committedRoots.iter ∨ k ∈ r.activeOutputs.values := by
  decide

end PendingRecord

end Sunpack.WatchStore
