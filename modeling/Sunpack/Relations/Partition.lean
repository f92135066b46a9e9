import Sunpack.Relations.Groups

/-!
# Candidate groups partition the filtered rows

No path key is in two groups, and every filtered row is in one. Whatever the probes, the solver and
the validation answer, a proposal takes rows out of the ordinary groups only if it is returned
itself or has no filtered member.
-/

namespace Sunpack.Relations

variable (T : DowncaseTable)

/-- The paths of a group: its row, or the volumes, companions and unresolved members. -/
def NativeRelationGroup.paths : NativeRelationGroup → List Text
  | .ordinary row _ => [row.path]
  | .proposal v _ => v.proposal.volumes.map (·.path) ++ v.proposal.companions ++ v.unresolved

def NativeRelationGroup.keys (g : NativeRelationGroup) : List Text := g.paths.map T.pathKey

theorem mem_validationOwnedPaths {v : ProposalValidation} {kind : GroupKind} {key : Text} :
    key ∈ validationOwnedPaths T v ↔ key ∈ (NativeRelationGroup.proposal v kind).keys T := by
  simp [validationOwnedPaths, proposalOwnedPaths, NativeRelationGroup.keys,
    NativeRelationGroup.paths]

theorem selected_iff {filteredKeys : List Text} {v : ProposalValidation} :
    selected T filteredKeys v = true ↔ ∃ key ∈ validationOwnedPaths T v, key ∈ filteredKeys := by
  simp only [selected, validationOwnedPaths, proposalOwnedPaths, Bool.or_eq_true, List.any_eq_true,
    decide_eq_true_eq, List.mem_dedup, List.mem_append, List.mem_map]
  constructor
  · rintro ((⟨part, h, hk⟩ | ⟨path, h, hk⟩) | ⟨path, h, hk⟩)
    · exact ⟨_, .inl (.inl ⟨part, h, rfl⟩), hk⟩
    · exact ⟨_, .inr ⟨path, h, rfl⟩, hk⟩
    · exact ⟨_, .inl (.inr ⟨path, h, rfl⟩), hk⟩
  · rintro ⟨key, (⟨part, h, rfl⟩ | ⟨path, h, rfl⟩) | ⟨path, h, rfl⟩, hk⟩
    · exact .inl (.inl ⟨part, h, hk⟩)
    · exact .inr ⟨path, h, hk⟩
    · exact .inl (.inr ⟨path, h, hk⟩)

/-! ## Conflicts -/

/-- Every noted pair has an owner of its path: itself, or another one and both are conflicted. -/
def Owners.Sound (o : Owners) (noted : List (Nat × Text)) : Prop :=
  ∀ pair ∈ noted, ∃ owner, o.ownerByPath.lookup pair.2 = some owner ∧
    (owner = pair.1 ∨ owner ∈ o.conflicted ∧ pair.1 ∈ o.conflicted)

theorem Owners.sound_note {o : Owners} {noted : List (Nat × Text)} (h : o.Sound noted)
    (index : Nat) (path : Text) : (o.note index path).Sound (noted ++ [(index, path)]) := by
  rintro ⟨i, p⟩ hmem
  rw [List.mem_append, List.mem_singleton] at hmem
  unfold note
  split
  · rename_i previous hprevious
    rcases hmem with hmem | hmem
    · obtain ⟨owner, hl, hor⟩ := h _ hmem
      refine ⟨owner, hl, hor.imp id fun hc => ?_⟩
      exact ⟨List.mem_cons_of_mem _ (List.mem_cons_of_mem _ hc.1),
        List.mem_cons_of_mem _ (List.mem_cons_of_mem _ hc.2)⟩
    · obtain ⟨rfl, rfl⟩ := Prod.mk.inj hmem
      exact ⟨previous, hprevious, .inr ⟨by simp, by simp⟩⟩
  · rename_i hnone
    rcases hmem with hmem | hmem
    · obtain ⟨owner, hl, hor⟩ := h _ hmem
      refine ⟨owner, ?_, hor⟩
      have hne : p ≠ path := by
        rintro rfl
        simp only [hl] at hnone
        exact absurd hnone (by simp)
      simp only [List.lookup_cons, beq_false_of_ne hne, hl]
    · obtain ⟨rfl, rfl⟩ := Prod.mk.inj hmem
      exact ⟨i, by simp, .inl rfl⟩

theorem Owners.sound_foldl (pairs : List (Nat × Text)) {o : Owners} {noted : List (Nat × Text)}
    (h : o.Sound noted) :
    (pairs.foldl (fun o pair => o.note pair.1 pair.2) o).Sound (noted ++ pairs) := by
  induction pairs generalizing o noted with
  | nil => simpa using h
  | cons pair pairs ih =>
    have := ih (Owners.sound_note h pair.1 pair.2)
    rwa [List.append_assoc] at this

/-- Two indexes that share a path are both conflicted. -/
theorem conflicting_of_shared {ownedPaths : List (List Text)} {indexes : List Nat} {i j : Nat}
    (hi : i ∈ indexes) (hj : j ∈ indexes) (hne : i ≠ j) {path : Text}
    (hpi : path ∈ ownedPaths.getD i []) (hpj : path ∈ ownedPaths.getD j []) :
    i ∈ conflictingIndexesAmong ownedPaths indexes := by
  set pairs := indexes.flatMap fun index => (ownedPaths.getD index []).map (index, ·) with hpairs
  have heq : conflictingIndexesAmong ownedPaths indexes =
      (pairs.foldl (fun o pair => o.note pair.1 pair.2) ({} : Owners)).conflicted := by
    rw [conflictingIndexesAmong, hpairs, List.foldl_flatMap]
    simp only [List.foldl_map]
  have hsound : (pairs.foldl (fun o pair => o.note pair.1 pair.2) ({} : Owners)).Sound pairs := by
    simpa using @Owners.sound_foldl pairs {} [] (by simp [Owners.Sound])
  have hmem {k : Nat} (hk : k ∈ indexes) (hp : path ∈ ownedPaths.getD k []) : (k, path) ∈ pairs :=
    List.mem_flatMap.2 ⟨k, hk, List.mem_map_of_mem hp⟩
  obtain ⟨oi, hoi, hori⟩ := hsound _ (hmem hi hpi)
  obtain ⟨oj, hoj, horj⟩ := hsound _ (hmem hj hpj)
  obtain rfl : oi = oj := Option.some.inj (hoi.symm.trans hoj)
  rw [heq]
  rcases hori with rfl | hci
  · exact (horj.resolve_left hne).1
  · exact hci.2

/-! ## Claims -/

/-- What the claims made so far guarantee. -/
structure Claims.Sound (filteredKeys : List Text) (c : Claims) : Prop where
  disjoint : c.output.Pairwise fun g h => ∀ key ∈ g.keys T, key ∉ h.keys T
  owned : ∀ g ∈ c.output, ∀ key ∈ g.keys T, key ∈ c.claimedPaths ∨ key ∈ c.passwordPaths
  filtered : ∀ key ∈ filteredKeys, key ∈ c.claimedPaths ∨ key ∈ c.passwordPaths →
    ∃ g ∈ c.output, key ∈ g.keys T

theorem Claims.mem_take {c : Claims} {kind : GroupKind} {owned : List Text} {key : Text} :
    (key ∈ (c.take kind owned).claimedPaths ∨ key ∈ (c.take kind owned).passwordPaths) ↔
      (key ∈ c.claimedPaths ∨ key ∈ c.passwordPaths) ∨ key ∈ owned := by
  cases kind <;> simp only [take, List.mem_append] <;> tauto

@[simp] theorem Claims.take_output (c : Claims) (kind : GroupKind) (owned : List Text) :
    (c.take kind owned).output = c.output := by
  cases kind <;> rfl

/-- Claiming a proposal whose paths are all free. -/
theorem Claims.sound_take {filteredKeys : List Text} {c : Claims}
    (h : c.Sound T filteredKeys) (kind : GroupKind) {v : ProposalValidation}
    (hfree : ∀ key ∈ validationOwnedPaths T v, key ∉ c.claimedPaths ∧ key ∉ c.passwordPaths) :
    Claims.Sound T filteredKeys (
      if selected T filteredKeys v then { c.take kind (validationOwnedPaths T v) with
        output := (c.take kind (validationOwnedPaths T v)).output ++ [.proposal v kind] }
      else c.take kind (validationOwnedPaths T v)) := by
  split_ifs with hsel
  · refine ⟨?_, fun g hg key hkey => ?_, fun key hf hkey => ?_⟩
    · simp only [take_output, List.pairwise_append, List.pairwise_singleton, true_and,
        List.mem_singleton]
      refine ⟨h.disjoint, ?_⟩
      rintro g hg _ rfl key hkey hv
      rw [← mem_validationOwnedPaths] at hv
      rcases h.owned g hg key hkey with hc | hp
      · exact (hfree key hv).1 hc
      · exact (hfree key hv).2 hp
    · simp only [take_output, List.mem_append, List.mem_singleton] at hg
      refine Claims.mem_take.2 (hg.imp (h.owned g · key hkey) ?_)
      rintro rfl
      exact (mem_validationOwnedPaths T).2 hkey
    · simp only [take_output, List.mem_append, List.mem_singleton]
      rcases Claims.mem_take.1 hkey with hkey | hkey
      · obtain ⟨g, hg, hgk⟩ := h.filtered key hf hkey
        exact ⟨g, .inl hg, hgk⟩
      · exact ⟨_, .inr rfl, (mem_validationOwnedPaths T).1 hkey⟩
  · refine ⟨by simpa using h.disjoint, fun g hg key hkey => ?_, fun key hf hkey => ?_⟩
    · exact Claims.mem_take.2 (.inl (h.owned g (by simpa using hg) key hkey))
    · rcases Claims.mem_take.1 hkey with hkey | hkey
      · simpa using h.filtered key hf hkey
      · exact absurd ((selected_iff T).2 ⟨key, hkey, hf⟩) hsel

/-- One turn either leaves the claims alone or claims a candidate whose paths no group took. -/
theorem Claims.turn_cases (filteredKeys : List Text) (kind : GroupKind)
    (candidate : ProposalValidation → Bool) (conflicted : List Nat) (c : Claims)
    (v : ProposalValidation) (index : Nat) :
    c.turn T filteredKeys kind candidate conflicted (v, index) = c ∨
      (candidate v = true ∧ index ∉ conflicted ∧
        (∀ key ∈ validationOwnedPaths T v, key ∉ c.taken kind) ∧
        c.turn T filteredKeys kind candidate conflicted (v, index) =
          if selected T filteredKeys v then { c.take kind (validationOwnedPaths T v) with
            output := (c.take kind (validationOwnedPaths T v)).output ++ [.proposal v kind] }
          else c.take kind (validationOwnedPaths T v)) := by
  simp only [turn]
  by_cases hskip : (!candidate v || decide (index ∈ conflicted)) = true
  · exact .inl (if_pos hskip)
  rw [if_neg hskip]
  by_cases hany : ((validationOwnedPaths T v).any fun path => path ∈ c.taken kind) = true
  · exact .inl (if_pos hany)
  rw [if_neg hany]
  simp only [Bool.or_eq_true, Bool.not_eq_true', decide_eq_true_eq, not_or,
    Bool.not_eq_false] at hskip
  refine .inr ⟨hskip.1, hskip.2, fun key hkey htaken => ?_, rfl⟩
  exact hany (List.any_eq_true.2 ⟨key, hkey, by simpa using htaken⟩)

section Passes

variable {filteredKeys : List Text} {kind : GroupKind} {candidate : ProposalValidation → Bool}
  {conflicted : List Nat}

/-- The valid pass takes no password path. -/
theorem Claims.turn_passwordPaths {c : Claims} {item : ProposalValidation × Nat}
    (hkind : kind ≠ .password) :
    (c.turn T filteredKeys kind candidate conflicted item).passwordPaths = c.passwordPaths := by
  obtain ⟨v, index⟩ := item
  rcases Claims.turn_cases T filteredKeys kind candidate conflicted c v index with h | ⟨_, _, _, h⟩
  · rw [h]
  · rw [h]
    cases kind with
    | password => exact absurd rfl hkind
    | _ => split_ifs <;> rfl

/-- A pass whose blocked paths are all the paths taken so far. -/
theorem Claims.sound_foldl_valid (items : List (ProposalValidation × Nat)) {c : Claims}
    (h : c.Sound T filteredKeys) (hpassword : c.passwordPaths = []) :
    (items.foldl (Claims.turn T filteredKeys .valid candidate conflicted) c).Sound T filteredKeys ∧
      (items.foldl (Claims.turn T filteredKeys .valid candidate conflicted) c).passwordPaths =
        [] := by
  induction items generalizing c with
  | nil => exact ⟨h, hpassword⟩
  | cons item items ih =>
    obtain ⟨v, index⟩ := item
    rw [List.foldl_cons]
    refine ih ?_ ((Claims.turn_passwordPaths T (by simp)).trans hpassword)
    rcases Claims.turn_cases T filteredKeys .valid candidate conflicted c v index with
      heq | ⟨_, _, hfree, heq⟩
    · rw [heq]
      exact h
    · rw [heq]
      exact Claims.sound_take T h .valid fun key hkey => ⟨hfree key hkey, by simp [hpassword]⟩

theorem Claims.sound_foldl_incomplete (items : List (ProposalValidation × Nat)) {c : Claims}
    (h : c.Sound T filteredKeys) :
    (items.foldl (Claims.turn T filteredKeys .incomplete candidate conflicted) c).Sound T
      filteredKeys := by
  induction items generalizing c with
  | nil => exact h
  | cons item items ih =>
    obtain ⟨v, index⟩ := item
    rw [List.foldl_cons]
    refine ih ?_
    rcases Claims.turn_cases T filteredKeys .incomplete candidate conflicted c v index with
      heq | ⟨_, _, hfree, heq⟩
    · rw [heq]
      exact h
    · rw [heq]
      refine Claims.sound_take T h .incomplete fun key hkey => ?_
      have := hfree key hkey
      rw [Claims.taken, List.mem_append, not_or] at this
      exact this

/-- The password pass does not look at the password paths: that it never takes one twice is due to
the conflicts alone. `done` are the items that were seen. -/
theorem Claims.sound_foldl_password {items done : List (ProposalValidation × Nat)} {c : Claims}
    (h : c.Sound T filteredKeys)
    (hdone : ∀ key ∈ c.passwordPaths, ∃ item ∈ done, candidate item.1 = true ∧
      item.2 ∉ conflicted ∧ key ∈ validationOwnedPaths T item.1)
    (hconflicts : ∀ a ∈ done ++ items, ∀ b ∈ done ++ items, a.2 ≠ b.2 → candidate a.1 = true →
      candidate b.1 = true → ∀ key ∈ validationOwnedPaths T a.1,
        key ∈ validationOwnedPaths T b.1 → a.2 ∈ conflicted)
    (hnodup : ((done ++ items).map (·.2)).Nodup) :
    (items.foldl (Claims.turn T filteredKeys .password candidate conflicted) c).Sound T
      filteredKeys := by
  induction items generalizing done c with
  | nil => exact h
  | cons item items ih =>
    obtain ⟨v, index⟩ := item
    rw [List.foldl_cons]
    have happ : done ++ (v, index) :: items = done ++ [(v, index)] ++ items := by simp
    refine @ih (done ++ [(v, index)]) _ ?_ ?_ (happ ▸ hconflicts) (happ ▸ hnodup)
    · rcases Claims.turn_cases T filteredKeys .password candidate conflicted c v index with
        heq | ⟨hcand, hnot, hfree, heq⟩
      · rw [heq]
        exact h
      · rw [heq]
        refine Claims.sound_take T h .password fun key hkey => ⟨hfree key hkey, fun hp => ?_⟩
        obtain ⟨⟨u, i⟩, hmem, hu, hi, hkey'⟩ := hdone key hp
        have hne : index ≠ i := by
          rintro rfl
          rw [List.map_append, List.nodup_append] at hnodup
          exact hnodup.2.2 index (List.mem_map_of_mem (f := (·.2)) hmem) index (by simp) rfl
        exact hnot (hconflicts (v, index) (by simp) (u, i) (by simp [hmem]) hne hcand hu key hkey
          hkey')
    · intro key hkey
      have hold (hp : key ∈ c.passwordPaths) : ∃ item ∈ done ++ [(v, index)],
          candidate item.1 = true ∧ item.2 ∉ conflicted ∧ key ∈ validationOwnedPaths T item.1 := by
        obtain ⟨item, hmem, hitem⟩ := hdone key hp
        exact ⟨item, List.mem_append_left _ hmem, hitem⟩
      rcases Claims.turn_cases T filteredKeys .password candidate conflicted c v index with
        heq | ⟨hcand, hnot, _, heq⟩
      · rw [heq] at hkey
        exact hold hkey
      · have hkey' : key ∈ c.passwordPaths ++ validationOwnedPaths T v := by
          rw [heq] at hkey
          split_ifs at hkey <;> exact hkey
        rcases List.mem_append.1 hkey' with hp | hv
        · exact hold hp
        · exact ⟨(v, index), by simp, hcand, hnot, hv⟩

end Passes

theorem claimProposals_sound (filteredKeys : List Text) (validations : List ProposalValidation) :
    (claimProposals T filteredKeys validations).Sound T filteredKeys := by
  have hinit : Claims.Sound T filteredKeys {} := ⟨by simp, by simp, by simp⟩
  obtain ⟨hvalid, hempty⟩ := @Claims.sound_foldl_valid T filteredKeys (·.status = .valid)
    (conflictingIndexesAmong (validations.map (validationOwnedPaths T))
      ((validations.zipIdx.filter fun item => item.1.status = .valid).map (·.2)))
    validations.zipIdx _ hinit rfl
  refine Claims.sound_foldl_incomplete T _ ?_
  refine @Claims.sound_foldl_password T _ _ _ _ [] _ hvalid (fun key hkey => ?_) ?_ ?_
  · exact absurd (hempty ▸ hkey) (List.not_mem_nil)
  · rintro ⟨v, i⟩ hv ⟨u, j⟩ hu hne hcv hcu key hkv hku
    have hgetv := List.mem_zipIdx_iff_getElem?.1 (by simpa using hv)
    have hgetu := List.mem_zipIdx_iff_getElem?.1 (by simpa using hu)
    refine @conflicting_of_shared _ _ i j ?_ ?_ hne key ?_ ?_
    · exact List.mem_map.2 ⟨(v, i), List.mem_filter.2 ⟨by simpa using hv, hcv⟩, rfl⟩
    · exact List.mem_map.2 ⟨(u, j), List.mem_filter.2 ⟨by simpa using hu, hcu⟩, rfl⟩
    · simpa [List.getD_eq_getElem?_getD, hgetv] using hkv
    · simpa [List.getD_eq_getElem?_getD, hgetu] using hku
  · simp [List.zipIdx_map_snd, List.nodup_range']

/-! ## The partition -/

theorem map_mapIdx_pathKey (P : Probes) (rows : List RelationInput) (index : BucketIndex)
    (passwords : Option (List (Text × Text))) :
    (collect P rows index passwords).map (·.pathKey) = rows.map (·.pathKey) := by
  refine List.ext_getElem (by simp [collect]) fun i hi _ => ?_
  simp [collect]

/-- The groups of a scope whose rows carry the keys of their paths. -/
theorem claimGroups_partition {filteredKeys : List Text} {directoryRows : List RelationInput}
    {validations : List ProposalValidation}
    (hkeys : ∀ row ∈ directoryRows, row.pathKey = T.pathKey row.path)
    (hnodup : (directoryRows.map (·.pathKey)).Nodup) :
    (∀ row ∈ directoryRows, row.pathKey ∈ filteredKeys →
      ∃ g ∈ claimGroups T filteredKeys directoryRows validations, row.pathKey ∈ g.keys T) ∧
    (claimGroups T filteredKeys directoryRows validations).Pairwise
      fun g h => ∀ key ∈ g.keys T, key ∉ h.keys T := by
  have hsound := claimProposals_sound T filteredKeys validations
  simp only [claimGroups]
  set c := claimProposals T filteredKeys validations
  constructor
  · intro row hrow hf
    by_cases htaken : row.pathKey ∈ c.claimedPaths ∨ row.pathKey ∈ c.passwordPaths
    · obtain ⟨g, hg, hkey⟩ := hsound.filtered _ hf htaken
      exact ⟨g, List.mem_append_left _ hg, hkey⟩
    · rw [not_or] at htaken
      refine ⟨.ordinary row _, List.mem_append_right _ (List.mem_map_of_mem ?_), ?_⟩
      · exact List.mem_filter.2 ⟨hrow, by simp [hf, htaken]⟩
      · simp [NativeRelationGroup.keys, NativeRelationGroup.paths, hkeys row hrow]
  · have hordinary {row : RelationInput} (hrow : row ∈ directoryRows) (confirmed : Bool) :
        (NativeRelationGroup.ordinary row confirmed).keys T = [row.pathKey] := by
      simp [NativeRelationGroup.keys, NativeRelationGroup.paths, hkeys row hrow]
    refine List.pairwise_append.2 ⟨hsound.disjoint, ?_, ?_⟩
    · rw [List.pairwise_map]
      have hpair : directoryRows.Pairwise fun r s => r.pathKey ≠ s.pathKey :=
        List.pairwise_map.1 hnodup
      refine (hpair.filter _).imp_of_mem fun hr hs hne key hkey hkey' => ?_
      rw [hordinary (List.mem_filter.1 hr).1, List.mem_singleton] at hkey
      rw [hordinary (List.mem_filter.1 hs).1, List.mem_singleton] at hkey'
      exact hne (hkey.symm.trans hkey')
    · intro g hg _ hmem key hkey hkey'
      obtain ⟨row, hrow, rfl⟩ := List.mem_map.1 hmem
      obtain ⟨hrow, hfree⟩ := List.mem_filter.1 hrow
      rw [hordinary hrow, List.mem_singleton] at hkey'
      simp only [Bool.and_eq_true, Bool.not_eq_true', decide_eq_false_iff_not] at hfree
      rcases hsound.owned g hg key hkey with hc | hp
      · exact hfree.1.2 (hkey' ▸ hc)
      · exact hfree.2 (hkey' ▸ hp)

/-- Groups that share no path, not even up to the case of names, and that hold every filtered row
exactly once. -/
structure Partitions (rows : List RelationInput) (filteredKeys : List Text)
    (groups : List NativeRelationGroup) : Prop where
  once : ∀ row ∈ rows, row.pathKey ∈ filteredKeys →
    ∃! i : Nat, ∃ g : NativeRelationGroup, groups[i]? = some g ∧ row.pathKey ∈ g.keys T
  apart : ∀ (i j : Nat) (g h : NativeRelationGroup), groups[i]? = some g → groups[j]? = some h →
    i ≠ j → ∀ p ∈ g.paths, ∀ q ∈ h.paths, T.pathKey p ≠ T.pathKey q

/-- The candidate groups of a selection partition its rows. -/
theorem candidate_groups_partition (P : Probes) (source : RelationSource)
    (filteredKeys : List Text) (pathPasswords : Option (List (Text × Text)))
    (cached : Option RelationCache)
    (hdistinct : ((source.materializeAll T).map (·.pathKey)).Nodup) :
    Partitions T (source.materializeAll T) filteredKeys
      (buildCandidateGroupsFromSource T P source filteredKeys pathPasswords cached) := by
  set groups := buildCandidateGroupsFromSource T P source filteredKeys pathPasswords cached
  set scope := RelationScopeIndex.build T (source.materializeAll T) filteredKeys with hscope
  set rows := collect P scope (BucketIndex.build T scope filteredKeys) pathPasswords with hrows
  have hsub : scope.Sublist (source.materializeAll T) :=
    RelationScopeIndex.build_sublist T _ filteredKeys
  have hpaths (row : RelationInput) (h : row ∈ rows) :
      ∃ row' ∈ scope, row.path = row'.path ∧ row.pathKey = row'.pathKey := by
    obtain ⟨i, hi, rfl⟩ := List.mem_mapIdx.1 h
    exact ⟨scope[i], List.getElem_mem hi, rfl, rfl⟩
  have hkeys : ∀ row ∈ rows, row.pathKey = T.pathKey row.path := by
    intro row h
    obtain ⟨row', hmem, hp, hk⟩ := hpaths row h
    rw [hp, hk]
    exact source.materializeAll_pathKey T (hsub.subset hmem)
  have hnodup : (rows.map (·.pathKey)).Nodup := by
    rw [hrows, map_mapIdx_pathKey]
    exact hdistinct.sublist (hsub.map _)
  obtain ⟨hcover, hpair⟩ := @claimGroups_partition T filteredKeys rows
    ((resolveBuckets P rows (BucketIndex.build T scope filteredKeys) cached).map (validate P))
    hkeys hnodup
  have hdisjoint (i j : Nat) (g h : NativeRelationGroup) (hg : groups[i]? = some g)
      (hh : groups[j]? = some h) (hne : i ≠ j) : ∀ key ∈ g.keys T, key ∉ h.keys T := by
    intro key hkg hkh
    obtain ⟨hi, rfl⟩ := List.getElem?_eq_some_iff.1 hg
    obtain ⟨hj, rfl⟩ := List.getElem?_eq_some_iff.1 hh
    rcases Nat.lt_or_gt_of_ne hne with hlt | hlt
    · exact List.pairwise_iff_getElem.1 hpair i j hi hj hlt key hkg hkh
    · exact List.pairwise_iff_getElem.1 hpair j i hj hi hlt key hkh hkg
  refine ⟨fun row hrow hf => ?_, fun i j g h hg hh hne p hp q hq heq => ?_⟩
  · have hmem : row ∈ scope := RelationScopeIndex.mem_build T hrow
      (source.materializeAll_pathKey T hrow ▸ hf)
    obtain ⟨row', hrow', hk⟩ : ∃ row' ∈ rows, row'.pathKey = row.pathKey := by
      have : row.pathKey ∈ rows.map (·.pathKey) := by
        rw [hrows, map_mapIdx_pathKey]
        exact List.mem_map_of_mem hmem
      exact List.mem_map.1 this
    obtain ⟨g, hg, hkey⟩ := hcover row' hrow' (hk ▸ hf)
    obtain ⟨i, hi⟩ := List.getElem?_of_mem hg
    refine ⟨i, ⟨g, hi, hk ▸ hkey⟩, ?_⟩
    rintro j ⟨h, hh, hkh⟩
    by_contra hne
    exact hdisjoint j i h g hh hi hne _ hkh (hk ▸ hkey)
  · refine hdisjoint i j g h hg hh hne (T.pathKey p) (List.mem_map_of_mem hp) ?_
    rw [heq]
    exact List.mem_map_of_mem hq

/-! ## Members -/

theorem members_paths {rows : List RelationInput} {s : Solution rows} {volumes : List Volume}
    {unresolved : List Text} (h : s.members = some (volumes, unresolved)) :
    (∀ v ∈ volumes, ∃ row ∈ rows, v.path = row.path) ∧
      ∀ p ∈ unresolved, ∃ row ∈ rows, p = row.path := by
  have hunresolved : ∀ p ∈ (s.assignment.unresolved.filter fun i => (s.view.facts i).owned).map
      (fun i => (rows.get i).path), ∃ row ∈ rows, p = row.path := by
    intro p hp
    obtain ⟨i, _, rfl⟩ := List.mem_map.1 hp
    exact ⟨_, List.get_mem rows i, rfl⟩
  simp only [Solution.members] at h
  split at h
  · split at h
    · exact absurd h (by simp)
    · obtain ⟨rfl, rfl⟩ := Prod.mk.inj (Option.some.inj h)
      refine ⟨fun v hv => ?_, fun p hp => hunresolved p (List.mem_filter.1 hp).1⟩
      rw [List.mem_singleton.1 hv]
      exact ⟨_, List.get_mem rows _, rfl⟩
  · obtain ⟨rfl, rfl⟩ := Prod.mk.inj (Option.some.inj h)
    refine ⟨fun v hv => ?_, hunresolved⟩
    obtain ⟨⟨n, i⟩, _, rfl⟩ := List.mem_map.1 hv
    exact ⟨_, List.get_mem rows i, rfl⟩

/-- A proposal consists of rows of its scope. -/
theorem materialize_paths {rows : List RelationInput} {s : Solution rows} {v : ProposalValidation}
    (h : materialize s = some v) {kind : GroupKind} {p : Text}
    (hp : p ∈ (NativeRelationGroup.proposal v kind).paths) : ∃ row ∈ rows, p = row.path := by
  obtain ⟨⟨volumes, unresolved⟩, hmembers, rfl⟩ := Option.map_eq_some_iff.1 h
  obtain ⟨hvolumes, hunresolved⟩ := members_paths hmembers
  simp only [NativeRelationGroup.paths, List.mem_append, List.mem_map] at hp
  rcases hp with (⟨v, hv, rfl⟩ | ⟨i, _, rfl⟩) | hp
  · exact hvolumes v hv
  · exact ⟨_, List.get_mem rows i, rfl⟩
  · exact hunresolved p hp

/-- Two halves of an archive, the second one selected, and a solver that finds nothing. -/
theorem candidate_groups_partition_pair :
    Partitions .asciiOnly
      ((RelationSource.physical [⟨"C:/a.7z.001".toList, [], "a.7z.001".toList, none, true, none⟩,
        ⟨"C:/A.7z.002".toList, [], "A.7z.002".toList, none, true, none⟩]).materializeAll .asciiOnly)
      ["c:\\a.7z.002".toList]
      (buildCandidateGroupsFromSource .asciiOnly
        ⟨fun _ _ _ _ => none, fun _ _ _ => [], fun v => ⟨v.status, v.reason, v.anchors⟩⟩
        (RelationSource.physical [⟨"C:/a.7z.001".toList, [], "a.7z.001".toList, none, true, none⟩,
          ⟨"C:/A.7z.002".toList, [], "A.7z.002".toList, none, true, none⟩])
        ["c:\\a.7z.002".toList] none none) :=
  candidate_groups_partition .asciiOnly _ _ _ _ _ (by decide +kernel)

end Sunpack.Relations
