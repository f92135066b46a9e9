import Sunpack.Postprocess.Promotion

/-!
# What a promotion leaves behind

One description of the file system, `Placed`, says where the inputs are while they are moved and moved
back. Every turn keeps it, and the results are read off from it.
-/

namespace Sunpack.Postprocess

open Lib

variable {S : System}

/-! ## Keys of targets -/

theorem prefix_append_iff {p base rest : Text} (hp : p.getLast? = some '\\')
    (hrest : '\\' ∉ rest) : p <+: base ++ rest ↔ p <+: base := by
  constructor
  · intro h
    by_contra hbase
    obtain ⟨more, hmore⟩ : base <+: p := by
      rcases List.prefix_or_prefix_of_prefix h (List.prefix_append base rest) with hle | hle
      · exact absurd hle hbase
      · exact hle
    have hne : more ≠ [] := by
      rintro rfl
      exact hbase ⟨[], by rw [List.append_nil, ← hmore, List.append_nil]⟩
    rw [← hmore, List.getLast?_append_of_ne_nil _ hne] at hp
    rw [← hmore, List.prefix_append_right_inj] at h
    exact hrest (h.subset (List.mem_of_getLast? hp))
  · exact fun h => h.trans (List.prefix_append base rest)

/-- What is dropped of the text of a target depends on its directory alone. -/
theorem plain_append (base : Text) : ∃ front, ∀ name : Text, '\\' ∉ name →
    plain (base ++ name) = front ++ name := by
  have hdrop : ∀ {p : Text} (name : Text), p <+: base →
      (base ++ name).drop p.length = base.drop p.length ++ name := by
    intro p name hp
    rw [List.drop_append_of_le_length hp.length_le]
  by_cases hunc : uncPrefix <+: base
  · refine ⟨['\\', '\\'] ++ base.drop uncPrefix.length, fun name hname => ?_⟩
    rw [plain, if_pos ((prefix_append_iff rfl hname).2 hunc), hdrop name hunc, List.append_assoc]
  · by_cases hverbatim : verbatimPrefix <+: base
    · refine ⟨base.drop verbatimPrefix.length, fun name hname => ?_⟩
      rw [plain, if_neg (mt (prefix_append_iff rfl hname).1 hunc),
        if_pos ((prefix_append_iff rfl hname).2 hverbatim), hdrop name hverbatim]
    · refine ⟨base, fun name hname => ?_⟩
      rw [plain, if_neg (mt (prefix_append_iff rfl hname).1 hunc),
        if_neg (mt (prefix_append_iff rfl hname).1 hverbatim)]

/-- In one directory the keys of paths tell apart what the keys of names do. -/
theorem key_join_iff (T : DowncaseTable) (directory : Text) {name name' : Text}
    (h : ∀ c ∈ name, c ≠ '\\' ∧ c ≠ '/') (h' : ∀ c ∈ name', c ≠ '\\' ∧ c ≠ '/') :
    T.pathKey (plain (join directory name h).text) = T.pathKey (plain (join directory name' h').text) ↔
      T.pathKey name = T.pathKey name' := by
  obtain ⟨front, hfront⟩ := plain_append (directory ++ gap directory)
  show T.pathKey (plain (directory ++ gap directory ++ name)) =
    T.pathKey (plain (directory ++ gap directory ++ name')) ↔ _
  rw [hfront name fun hmem => (h _ hmem).1 rfl, hfront name' fun hmem => (h' _ hmem).1 rfl,
    T.pathKey_eq_map, T.pathKey_eq_map, T.pathKey_eq_map, T.pathKey_eq_map, List.map_append,
    List.map_append, List.append_cancel_left_eq]

/-! ## Aliases -/

theorem aliasLetters_eq (value : Nat) : aliasLetters value = Char.ofNat (97 + value % 16) ::
    if value / 16 = 0 then [] else aliasLetters (value / 16) := by
  rw [aliasLetters]
  split_ifs <;> rfl

theorem aliasLetters_injective {value value' : Nat} (h : aliasLetters value = aliasLetters value') :
    value = value' := by
  have hdigit : ∀ a < 16, ∀ b < 16, Char.ofNat (97 + a) = Char.ofNat (97 + b) → a = b := by
    intro a ha b hb heq
    have htoNat := congrArg Char.toNat heq
    rw [letter_toNat ha, letter_toNat hb] at htoNat
    omega
  have hnonempty : ∀ value, aliasLetters value ≠ [] := by
    intro value
    rw [aliasLetters_eq]
    exact List.cons_ne_nil _ _
  induction value using Nat.strong_induction_on generalizing value' with
  | _ value ih =>
    rw [aliasLetters_eq value, aliasLetters_eq value', List.cons.injEq] at h
    obtain ⟨hlow, hhigh⟩ := h
    have hlow := hdigit _ (Nat.mod_lt value (by omega)) _ (Nat.mod_lt value' (by omega)) hlow
    split_ifs at hhigh with hlast hlast'
    · omega
    · exact absurd hhigh.symm (hnonempty _)
    · exact absurd hhigh (hnonempty _)
    · have hrest := ih (value / 16) (by omega) hhigh
      omega

theorem keyChar_letter (T : DowncaseTable) {digit : Nat} (h : digit < 16) :
    T.keyChar (Char.ofNat (97 + digit)) = Char.ofNat (97 + digit) := by
  have htoNat := letter_toNat h
  have hlower : T.downcaseChar (Char.ofNat (97 + digit)) = Char.ofNat (97 + digit) := by
    rw [T.downcaseChar_ascii (by omega), Char.toLower, dif_neg]
    rintro ⟨-, hle⟩
    have : (Char.ofNat (97 + digit)).toNat ≤ 90 := hle
    omega
  rw [DowncaseTable.keyChar, hlower, if_neg]
  intro heq
  rw [heq] at htoNat
  have : '/'.toNat = 47 := rfl
  omega

/-- The names that are tried have different keys. -/
theorem candidate_injective (T : DowncaseTable) (name : Text) (next : Nat) :
    Function.Injective fun k => T.pathKey (candidate name next k) := by
  have hletters : ∀ value, (aliasLetters value).map T.keyChar = aliasLetters value := by
    intro value
    refine List.map_congr_left (g := id) (fun c hc => ?_) |>.trans (List.map_id _)
    obtain ⟨digit, hdigit, rfl⟩ := aliasLetters_mem hc
    exact keyChar_letter T hdigit
  have hlonger : ∀ k, (candidate name next 0).length < (candidate name next (k + 1)).length := by
    intro k
    show name.length < (name ++ aliasSuffix ++ aliasLetters (next + k)).length
    rw [List.length_append, List.length_append]
    have : aliasSuffix.length = 11 := rfl
    omega
  intro k k' h
  have hlength := congrArg List.length h
  simp only [T.pathKey_eq_map, List.length_map] at hlength
  cases k with
  | zero =>
    cases k' with
    | zero => rfl
    | succ k' => exact absurd hlength (Nat.ne_of_lt (hlonger k'))
  | succ k =>
    cases k' with
    | zero => exact absurd hlength (Nat.ne_of_gt (hlonger k))
    | succ k' =>
      simp only [T.pathKey_eq_map, candidate, List.map_append, hletters,
        List.append_cancel_left_eq] at h
      have := aliasLetters_injective h
      omega

/-! ## The plan -/

/-- What a plan of moves is. -/
structure Planned (S : System) (s : Entries) (destination : Text) (plan : Plan) : Prop where
  sources : plan.sources = plan.moves.map fun m => S.table.pathKey (S.canonical (S.locate m.1))
  sourcesDistinct : (plan.moves.map fun m => S.locate m.1).Nodup
  files : ∀ m ∈ plan.moves, ∃ content, s.get? (S.locate m.1) = some (.file content)
  destinations : plan.destinations = plan.moves.map fun m => S.table.pathKey m.2.name
  targetsDistinct : plan.destinations.Nodup
  inside : ∀ m ∈ plan.moves, m.2 = join destination m.2.name m.2.separators
  free : ∀ m ∈ plan.moves, s.get? (S.locate m.2) = none

theorem planned_empty (S : System) (s : Entries) (destination : Text) (next : Nat) :
    Planned S s destination { next := next } where
  sources := rfl
  sourcesDistinct := List.nodup_nil
  files _ hm := absurd hm List.not_mem_nil
  destinations := rfl
  targetsDistinct := List.nodup_nil
  inside _ hm := absurd hm List.not_mem_nil
  free _ hm := absurd hm List.not_mem_nil

theorem planTarget_ok {s : Entries} {destination : Text} {plan : Plan} {source target : FilePath}
    {next : Nat} (h : planTarget S s destination plan source = .ok (target, next)) :
    target = join destination target.name target.separators ∧ s.get? (S.locate target) = none ∧
      S.table.pathKey target.name ∉ plan.destinations := by
  unfold planTarget at h
  dsimp only at h
  have hfree := @firstFree_free _ _ (takenKeys S s destination plan) _
    (candidate_injective S.table source.name plan.next) 0
  split at h
  · cases h
  · next hquery =>
    obtain ⟨rfl, -⟩ := Prod.mk.inj (Except.ok.inj h)
    have hkey : S.table.pathKey (candidate source.name plan.next
        (firstFree (takenKeys S s destination plan)
          (fun k => S.table.pathKey (candidate source.name plan.next k)) 0)) ∉
        (s.entries.filter fun entry => entry.1.1 = S.directory destination).map (·.1.2) ++
          plan.destinations := by
      intro hmem
      apply hfree
      refine List.mem_filter.2 ⟨hmem, ?_⟩
      rw [Option.isNone_iff_eq_none]
      exact hquery
    rw [List.mem_append, not_or] at hkey
    refine ⟨rfl, ?_, hkey.2⟩
    by_contra hsome
    obtain ⟨entry, hget⟩ := Option.ne_none_iff_exists'.1 hsome
    refine hkey.1 (List.mem_map.2 ⟨_, List.mem_filter.2 ⟨Dict.mem_entries.2 hget, ?_⟩, rfl⟩)
    exact decide_eq_true rfl

theorem normalizePath_of_some {s : Entries} {path : FilePath}
    (hquery : S.queryError (S.locate path) = none) (hsome : (s.get? (S.locate path)).isSome = true) :
    S.normalizePath s path = S.canonical (S.locate path) := if_pos ⟨hsome, hquery⟩

theorem Planned.one {s : Entries} {destination : Text} {plan plan' : Plan} {path : PathBuf}
    (h : Planned S s destination plan) (hone : planOne S s destination plan path = .ok plan') :
    Planned S s destination plan' ∧ plan.moves ⊆ plan'.moves ∧
      ∀ source, path = .file source → S.queryError (S.locate source) = none →
        (s.get? (S.locate source)).isSome = true →
          ∃ m ∈ plan'.moves, S.locate m.1 = S.locate source := by
  cases path with
  | unnamed text => cases hone
  | file source =>
    unfold planOne at hone
    dsimp only at hone
    split_ifs at hone with hknown
    · obtain rfl := Except.ok.inj hone
      refine ⟨h, List.Subset.refl _, ?_⟩
      rintro source' hsource hquery hsome
      obtain rfl := PathBuf.file.inj hsource
      rw [normalizePath_of_some hquery hsome, h.sources] at hknown
      obtain ⟨m, hm, hkey⟩ := List.mem_map.1 hknown
      exact ⟨m, hm, S.canonical_key _ _ _ _ hkey⟩
    · cases hquery : S.queryError (S.locate source) with
      | some error =>
        rw [hquery] at hone
        cases hone
      | none =>
        rw [hquery] at hone
        dsimp only at hone
        cases hget : s.get? (S.locate source) with
        | none =>
          rw [hget] at hone
          cases hone
        | some entry =>
          rw [hget] at hone
          cases entry with
          | directory id => cases hone
          | file content =>
            dsimp only at hone
            cases htarget : planTarget S s destination plan source with
            | error error =>
              rw [htarget] at hone
              cases hone
            | ok result =>
              rw [htarget] at hone
              obtain ⟨target, next⟩ := result
              obtain rfl := Except.ok.inj hone
              obtain ⟨hinside, hfree, hfresh⟩ := planTarget_ok htarget
              have hsome : (s.get? (S.locate source)).isSome = true := by rw [hget]; rfl
              rw [normalizePath_of_some hquery hsome] at hknown ⊢
              refine ⟨⟨?_, ?_, ?_, ?_, ?_, ?_, ?_⟩, List.subset_append_left _ _, ?_⟩
              · show _ ++ _ = _
                rw [h.sources, List.map_append]
                rfl
              · show ((plan.moves ++ [(source, target)]).map fun m => S.locate m.1).Nodup
                rw [List.map_append, List.nodup_append]
                refine ⟨h.sourcesDistinct, List.nodup_singleton _, ?_⟩
                rintro l hl l' hl' rfl
                obtain rfl := List.mem_singleton.1 hl'
                obtain ⟨m, hm, heq⟩ := List.mem_map.1 hl
                apply hknown
                rw [h.sources]
                exact List.mem_map.2 ⟨m, hm, by rw [heq]⟩
              · intro m hm
                rcases List.mem_append.1 hm with hm | hm
                · exact h.files m hm
                · obtain rfl := List.mem_singleton.1 hm
                  exact ⟨content, hget⟩
              · show _ ++ _ = _
                rw [h.destinations, List.map_append]
                rfl
              · show (plan.destinations ++ [S.table.pathKey target.name]).Nodup
                rw [List.nodup_append]
                refine ⟨h.targetsDistinct, List.nodup_singleton _, ?_⟩
                rintro key hkey key' hkey' rfl
                obtain rfl := List.mem_singleton.1 hkey'
                exact hfresh hkey
              · intro m hm
                rcases List.mem_append.1 hm with hm | hm
                · exact h.inside m hm
                · obtain rfl := List.mem_singleton.1 hm
                  exact hinside
              · intro m hm
                rcases List.mem_append.1 hm with hm | hm
                · exact h.free m hm
                · obtain rfl := List.mem_singleton.1 hm
                  exact hfree
              · rintro source' hsource - -
                obtain rfl := PathBuf.file.inj hsource
                exact ⟨(source, target), List.mem_append_right _ (List.mem_singleton_self _), rfl⟩

theorem planned {s : Entries} {destination : Text} {next : Nat} {paths : List PathBuf} {plan : Plan}
    (hplan : planPromotionMoves S s destination next paths = .ok plan) :
    Planned S s destination plan ∧ ∀ source, .file source ∈ paths →
      S.queryError (S.locate source) = none → (s.get? (S.locate source)).isSome = true →
        ∃ m ∈ plan.moves, S.locate m.1 = S.locate source := by
  have hrun : ∀ start : Plan, Planned S s destination start →
      paths.foldlM (planOne S s destination) start = .ok plan →
      Planned S s destination plan ∧ start.moves ⊆ plan.moves ∧ ∀ source, .file source ∈ paths →
        S.queryError (S.locate source) = none → (s.get? (S.locate source)).isSome = true →
          ∃ m ∈ plan.moves, S.locate m.1 = S.locate source := by
    clear hplan
    induction paths with
    | nil =>
      intro start hstart hrun
      obtain rfl := Except.ok.inj hrun
      exact ⟨hstart, List.Subset.refl _, fun source hsource => absurd hsource List.not_mem_nil⟩
    | cons path paths ih =>
      intro start hstart hrun
      rw [List.foldlM_cons] at hrun
      cases hone : planOne S s destination start path with
      | error error =>
        rw [hone] at hrun
        cases hrun
      | ok between =>
        rw [hone] at hrun
        obtain ⟨hbetween, hsub, hcovered⟩ := hstart.one hone
        obtain ⟨hplanned, hsub', hcovered'⟩ := ih between hbetween hrun
        refine ⟨hplanned, fun m hm => hsub' (hsub hm), fun source hsource hquery hsome => ?_⟩
        rcases List.mem_cons.1 hsource with hhere | hthere
        · obtain ⟨m, hm, heq⟩ := hcovered source hhere.symm hquery hsome
          exact ⟨m, hsub' hm, heq⟩
        · exact hcovered' source hthere hquery hsome
  obtain ⟨hplanned, -, hcovered⟩ := hrun _ (planned_empty S s destination next) hplan
  exact ⟨hplanned, hcovered⟩

/-! ## Where the inputs are -/

/-- The places of the inputs and of their targets, all of them different. -/
structure Apart (S : System) (start : Entries) (moves : List Move) : Prop where
  files : ∀ m ∈ moves, ∃ content, start.get? (S.locate m.1) = some (.file content)
  sources : ∀ m ∈ moves, ∀ m' ∈ moves, S.locate m.1 = S.locate m'.1 → m = m'
  targets : ∀ m ∈ moves, ∀ m' ∈ moves, S.locate m.2 = S.locate m'.2 → m = m'
  between : ∀ m ∈ moves, ∀ m' ∈ moves, S.locate m.1 ≠ S.locate m'.2
  free : ∀ m ∈ moves, start.get? (S.locate m.2) = none

/-- `moved` are the inputs at their targets, `arrived` is what others put somewhere since the start. -/
structure Placed (S : System) (start : Entries) (moves : List Move) (moved : Move → Prop)
    (arrived : List (Location × Entry)) (s : Entries) : Prop where
  unmoved : ∀ m ∈ moves, ¬ moved m → s.get? (S.locate m.1) = start.get? (S.locate m.1)
  movedSub : ∀ m, moved m → m ∈ moves
  target : ∀ m, moved m → s.get? (S.locate m.2) = start.get? (S.locate m.1)
  kept : ∀ l entry, start.get? l = some entry → (∀ m ∈ moves, l ≠ S.locate m.1) →
    s.get? l = some entry
  arrivals : ∀ a ∈ arrived, s.get? a.1 = some a.2
  arrivedApart : ∀ a ∈ arrived, (∀ m ∈ moves, ¬ moved m → a.1 ≠ S.locate m.1) ∧
    ∀ m, moved m → a.1 ≠ S.locate m.2
  only : ∀ l entry, s.get? l = some entry → (l, entry) ∈ arrived ∨
    (start.get? l = some entry ∧ ∀ m, moved m → l ≠ S.locate m.1) ∨ ∃ m, moved m ∧ l = S.locate m.2

namespace Placed

variable {start s s' : Entries} {moves : List Move} {moved moved' : Move → Prop}
  {arrived : List (Location × Entry)}

theorem start_placed (S : System) (start : Entries) (moves : List Move) :
    Placed S start moves (fun _ => False) [] start where
  unmoved _ _ _ := rfl
  movedSub _ h := h.elim
  target _ h := h.elim
  kept _ _ h _ := h
  arrivals _ h := absurd h List.not_mem_nil
  arrivedApart _ h := absurd h List.not_mem_nil
  only _ _ h := .inr (.inl ⟨h, fun _ h => h.elim⟩)

theorem congr (h : Placed S start moves moved arrived s) (hmoved : ∀ m, moved m ↔ moved' m) :
    Placed S start moves moved' arrived s := by
  have heq : moved = moved' := funext fun m => propext (hmoved m)
  exact heq ▸ h

theorem arrive (h : Placed S start moves moved arrived s) (hapart : Apart S start moves)
    (arrivals : List (Location × Entry)) :
    ∃ more, more ⊆ arrivals ∧
      Placed S start moves moved (arrived ++ more) (Entries.arrive s arrivals) := by
  classical
  obtain ⟨hkept, hnew⟩ := Entries.arrive_spec s arrivals
  have hinput : ∀ m ∈ moves, ∃ entry, start.get? (S.locate m.1) = some entry := by
    intro m hm
    obtain ⟨content, hget⟩ := hapart.files m hm
    exact ⟨_, hget⟩
  refine ⟨arrivals.filter fun a => s.get? a.1 = none ∧
    (Entries.arrive s arrivals).get? a.1 = some a.2, List.filter_sublist.subset, ?_⟩
  have hfresh : ∀ a ∈ arrived ++ arrivals.filter (fun a => s.get? a.1 = none ∧
      (Entries.arrive s arrivals).get? a.1 = some a.2), a ∈ arrived ∨ s.get? a.1 = none ∧
        (Entries.arrive s arrivals).get? a.1 = some a.2 := by
    intro a ha
    rcases List.mem_append.1 ha with ha | ha
    · exact .inl ha
    · exact .inr (of_decide_eq_true (List.mem_filter.1 ha).2)
  refine ⟨fun m hm hmoved => ?_, h.movedSub, fun m hm => ?_, fun l entry hget hl => ?_,
    fun a ha => ?_, fun a ha => ?_, fun l entry hget => ?_⟩
  · obtain ⟨entry, hentry⟩ := hinput m hm
    rw [hentry]
    exact hkept _ _ ((h.unmoved m hm hmoved).trans hentry)
  · obtain ⟨entry, hentry⟩ := hinput m (h.movedSub m hm)
    rw [hentry]
    exact hkept _ _ ((h.target m hm).trans hentry)
  · exact hkept _ _ (h.kept l entry hget hl)
  · rcases hfresh a ha with hold | ⟨-, hget⟩
    · exact hkept _ _ (h.arrivals a hold)
    · exact hget
  · rcases hfresh a ha with hold | ⟨hnone, -⟩
    · exact h.arrivedApart a hold
    · refine ⟨fun m hm hmoved heq => ?_, fun m hm heq => ?_⟩
      · obtain ⟨entry, hentry⟩ := hinput m hm
        rw [heq, h.unmoved m hm hmoved, hentry] at hnone
        cases hnone
      · obtain ⟨entry, hentry⟩ := hinput m (h.movedSub m hm)
        rw [heq, h.target m hm, hentry] at hnone
        cases hnone
  · rcases hnew l entry hget with hold | ⟨hnone, hmem⟩
    · rcases h.only l entry hold with harrived | hrest
      · exact .inl (List.mem_append_left _ harrived)
      · exact .inr hrest
    · refine .inl (List.mem_append_right _ (List.mem_filter.2 ⟨hmem, ?_⟩))
      exact decide_eq_true ⟨hnone, hget⟩

/-- One input is moved to its target. -/
theorem forward (h : Placed S start moves moved arrived s) (hapart : Apart S start moves) {m : Move}
    (hm : m ∈ moves) (hunmoved : ¬ moved m)
    (hrename : Entries.rename s (S.locate m.1) (S.locate m.2) = .ok s') :
    Placed S start moves (fun m' => m' = m ∨ moved m') arrived s' := by
  obtain ⟨entry, hsource, htarget, hget⟩ := Entries.rename_ok hrename
  have hentry : start.get? (S.locate m.1) = some entry := (h.unmoved m hm hunmoved).symm.trans hsource
  refine ⟨fun m' hm' hnot => ?_, ?_, ?_, fun l e hl hfar => ?_, fun a ha => ?_, fun a ha => ?_,
    fun l e hl => ?_⟩
  · rw [not_or] at hnot
    rw [hget, if_neg (hapart.between m' hm' m hm),
      if_neg fun heq => hnot.1 (hapart.sources m' hm' m hm heq)]
    exact h.unmoved m' hm' hnot.2
  · rintro m' (rfl | hm')
    · exact hm
    · exact h.movedSub m' hm'
  · rintro m' (rfl | hm')
    · rw [hget, if_pos rfl, hentry]
    · have hmem := h.movedSub m' hm'
      have hne : S.locate m'.2 ≠ S.locate m.2 := by
        intro heq
        obtain rfl := hapart.targets m' hmem m hm heq
        exact hunmoved hm'
      rw [hget, if_neg hne, if_neg (hapart.between m hm m' hmem).symm]
      exact h.target m' hm'
  · have hold := h.kept l e hl hfar
    rw [hget, if_neg, if_neg (hfar m hm), hold]
    rintro rfl
    rw [htarget] at hold
    cases hold
  · have hold := h.arrivals a ha
    rw [hget, if_neg, if_neg ((h.arrivedApart a ha).1 m hm hunmoved), hold]
    intro heq
    rw [heq, htarget] at hold
    cases hold
  · refine ⟨fun m' hm' hnot => (h.arrivedApart a ha).1 m' hm' fun hmoved => hnot (.inr hmoved), ?_⟩
    rintro m' (rfl | hm') heq
    · have hold := h.arrivals a ha
      rw [heq, htarget] at hold
      cases hold
    · exact (h.arrivedApart a ha).2 m' hm' heq
  · rw [hget] at hl
    split_ifs at hl with htgt hsrc
    · exact .inr (.inr ⟨m, .inl rfl, htgt⟩)
    · rcases h.only l e hl with harrived | ⟨hstart, hfar⟩ | ⟨m', hm', heq⟩
      · exact .inl harrived
      · refine .inr (.inl ⟨hstart, ?_⟩)
        rintro m' (rfl | hm')
        · exact hsrc
        · exact hfar m' hm'
      · exact .inr (.inr ⟨m', .inr hm', heq⟩)

/-- One input is moved back. -/
theorem backward (h : Placed S start moves moved arrived s) (hapart : Apart S start moves) {m : Move}
    (hmoved : moved m) (hrename : Entries.rename s (S.locate m.2) (S.locate m.1) = .ok s') :
    Placed S start moves (fun m' => moved m' ∧ m' ≠ m) arrived s' := by
  obtain ⟨entry, htarget, hsource, hget⟩ := Entries.rename_ok hrename
  have hm := h.movedSub m hmoved
  have hentry : start.get? (S.locate m.1) = some entry := (h.target m hmoved).symm.trans htarget
  refine ⟨fun m' hm' hnot => ?_, fun m' hm' => h.movedSub m' hm'.1, fun m' hm' => ?_,
    fun l e hl hfar => ?_, fun a ha => ?_, fun a ha => ?_, fun l e hl => ?_⟩
  · by_cases heq : m' = m
    · rw [heq, hget, if_pos rfl, hentry]
    · rw [hget, if_neg fun hl => heq (hapart.sources m' hm' m hm hl),
        if_neg (hapart.between m' hm' m hm)]
      exact h.unmoved m' hm' fun hstill => hnot ⟨hstill, heq⟩
  · have hmem := h.movedSub m' hm'.1
    rw [hget, if_neg (hapart.between m hm m' hmem).symm,
      if_neg fun heq => hm'.2 (hapart.targets m' hmem m hm heq)]
    exact h.target m' hm'.1
  · have hold := h.kept l e hl hfar
    have hne : l ≠ S.locate m.2 := by
      rintro rfl
      rw [hapart.free m hm] at hl
      cases hl
    rw [hget, if_neg (hfar m hm), if_neg hne, hold]
  · have hold := h.arrivals a ha
    rw [hget, if_neg, if_neg ((h.arrivedApart a ha).2 m hmoved), hold]
    intro heq
    rw [heq, hsource] at hold
    cases hold
  · refine ⟨fun m' hm' hnot heq => ?_, fun m' hm' => (h.arrivedApart a ha).2 m' hm'.1⟩
    by_cases hsame : m' = m
    · have hold := h.arrivals a ha
      rw [heq, hsame, hsource] at hold
      cases hold
    · exact (h.arrivedApart a ha).1 m' hm' (fun hstill => hnot ⟨hstill, hsame⟩) heq
  · rw [hget] at hl
    split_ifs at hl with hsrc htgt
    · refine .inr (.inl ⟨?_, fun m' hm' heq => ?_⟩)
      · rw [hsrc, hentry, hl]
      · exact hm'.2 (hapart.sources m' (h.movedSub m' hm'.1) m hm (heq.symm.trans hsrc))
    · rcases h.only l e hl with harrived | ⟨hstart, hfar⟩ | ⟨m', hm', heq⟩
      · exact .inl harrived
      · exact .inr (.inl ⟨hstart, fun m' hm' => hfar m' hm'.1⟩)
      · refine .inr (.inr ⟨m', ⟨hm', ?_⟩, heq⟩)
        rintro rfl
        exact htgt heq

/-- One call of `move_file`: what is placed before it, and how it ends. -/
theorem moveFile_forward (h : Placed S start moves moved arrived s) (hapart : Apart S start moves)
    {m : Move} (hm : m ∈ moves) (hunmoved : ¬ moved m) (turn : Turn) :
    ∃ more, more ⊆ turn.arrivals ∧ match moveFile S s turn m.1 m.2 with
      | (none, s') => Placed S start moves (fun m' => m' = m ∨ moved m') (arrived ++ more) s'
      | (some _, s') => Placed S start moves moved (arrived ++ more) s' := by
  obtain ⟨more, hmore, hplaced⟩ := h.arrive hapart turn.arrivals
  refine ⟨more, hmore, ?_⟩
  unfold moveFile
  dsimp only
  cases turn.error with
  | some error => exact hplaced
  | none =>
    cases hrename : Entries.rename (Entries.arrive s turn.arrivals) (S.locate m.1) (S.locate m.2) with
    | error error => exact hplaced
    | ok s' => exact hplaced.forward hapart hm hunmoved hrename

theorem moveFile_backward (h : Placed S start moves moved arrived s) (hapart : Apart S start moves)
    {m : Move} (hmoved : moved m) (turn : Turn) :
    ∃ more, more ⊆ turn.arrivals ∧ match moveFile S s turn m.2 m.1 with
      | (none, s') => Placed S start moves (fun m' => moved m' ∧ m' ≠ m) (arrived ++ more) s'
      | (some _, s') => Placed S start moves moved (arrived ++ more) s' := by
  obtain ⟨more, hmore, hplaced⟩ := h.arrive hapart turn.arrivals
  refine ⟨more, hmore, ?_⟩
  unfold moveFile
  dsimp only
  cases turn.error with
  | some error => exact hplaced
  | none =>
    cases hrename : Entries.rename (Entries.arrive s turn.arrivals) (S.locate m.2) (S.locate m.1) with
    | error error => exact hplaced
    | ok s' => exact hplaced.backward hapart hmoved hrename

end Placed

/-! ## Runs -/

/-- What a run of moves leaves: the inputs that are moved, and arrivals of its turns. -/
def Leaves (S : System) (start : Entries) (moves : List Move) (moved : Move → Prop)
    (turns : List Turn) (arrived : List (Location × Entry)) (s : Entries) : Prop :=
  ∃ more, (∀ a ∈ more, ∃ turn ∈ turns, a ∈ turn.arrivals) ∧
    Placed S start moves moved (arrived ++ more) s

theorem Leaves.cons {start s : Entries} {moves : List Move} {moved : Move → Prop}
    {turns : List Turn} {arrived more : List (Location × Entry)}
    (hmore : more ⊆ (turns.headD {}).arrivals)
    (h : Leaves S start moves moved turns.tail (arrived ++ more) s) :
    Leaves S start moves moved turns arrived s := by
  obtain ⟨rest, hrest, hplaced⟩ := h
  refine ⟨more ++ rest, fun a ha => ?_, by rwa [← List.append_assoc]⟩
  cases turns with
  | nil =>
    rcases List.mem_append.1 ha with ha | ha
    · exact absurd (hmore ha) List.not_mem_nil
    · obtain ⟨turn, hturn, -⟩ := hrest a ha
      exact absurd hturn List.not_mem_nil
  | cons turn turns =>
    rcases List.mem_append.1 ha with ha | ha
    · exact ⟨turn, List.mem_cons_self, hmore ha⟩
    · obtain ⟨turn', hturn, hmem⟩ := hrest a ha
      exact ⟨turn', List.mem_cons_of_mem _ hturn, hmem⟩

/-- The pair of the residual map for an input that stays at its target. -/
def Reports (S : System) (pair : Text × Text) (m : Move) : Prop :=
  (pair.1 = plain m.1.text ∨ pair.1 = S.canonical (S.locate m.1)) ∧
    pair.2 = if S.queryError (S.locate m.2) = none then S.canonical (S.locate m.2) else plain m.2.text

theorem reports_of_placed {start s : Entries} {moves : List Move} {moved : Move → Prop}
    {arrived : List (Location × Entry)} (h : Placed S start moves moved arrived s)
    (hapart : Apart S start moves) {m : Move} (hm : moved m) :
    Reports S (S.normalizePath s m.1, S.normalizePath s m.2) m := by
  obtain ⟨content, hfile⟩ := hapart.files m (h.movedSub m hm)
  have hsome : (s.get? (S.locate m.2)).isSome = true := by rw [h.target m hm, hfile]; rfl
  have hold : S.normalizePath s m.1 = plain m.1.text ∨
      S.normalizePath s m.1 = S.canonical (S.locate m.1) := by
    unfold System.normalizePath
    split_ifs
    · exact .inr rfl
    · exact .inl rfl
  refine ⟨hold, ?_⟩
  show S.normalizePath s m.2 = _
  unfold System.normalizePath
  simp only [hsome, true_and]

theorem rollback_spec {start : Entries} {moves : List Move} (hapart : Apart S start moves)
    (back : List Move) : ∀ (turns : List Turn) {s : Entries} {arrived : List (Location × Entry)}
      {moved : Move → Prop}, Placed S start moves moved arrived s → (∀ m ∈ back, moved m) →
      back.Nodup → ∃ stays : List Move, stays.Sublist back ∧
        List.Forall₂ (Reports S) (rollback S turns s back).1 stays ∧
        Leaves S start moves (fun m => moved m ∧ (m ∈ back → m ∈ stays)) turns arrived
          (rollback S turns s back).2.2 := by
  induction back with
  | nil =>
    intro turns s arrived moved h hback hnodup
    refine ⟨[], List.Sublist.refl _, List.Forall₂.nil, [], by simp, ?_⟩
    rw [List.append_nil]
    exact h.congr fun m => by simp
  | cons m back ih =>
    intro turns s arrived moved h hback hnodup
    obtain ⟨hfirst, hnodup⟩ := List.nodup_cons.1 hnodup
    obtain ⟨more, hmore, hmoved⟩ := h.moveFile_backward hapart (hback m List.mem_cons_self)
      (turns.headD {})
    unfold rollback
    dsimp only
    cases hresult : moveFile S s (turns.headD {}) m.2 m.1 with
    | mk error s' =>
      rw [hresult] at hmoved
      cases error with
      | none =>
        obtain ⟨stays, hsub, hreports, hleaves⟩ := ih turns.tail hmoved
          (fun m' hm' => ⟨hback m' (List.mem_cons_of_mem _ hm'), fun heq => hfirst (heq ▸ hm')⟩)
          hnodup
        refine ⟨stays, hsub.cons m, hreports, Leaves.cons hmore ?_⟩
        obtain ⟨rest, hrest, hplaced⟩ := hleaves
        refine ⟨rest, hrest, hplaced.congr fun m' => ?_⟩
        constructor
        · rintro ⟨⟨hmoved', hne⟩, hstays⟩
          exact ⟨hmoved', fun hmem => hstays ((List.mem_cons.1 hmem).resolve_left hne)⟩
        · rintro ⟨hmoved', hstays⟩
          refine ⟨⟨hmoved', ?_⟩, fun hmem => hstays (List.mem_cons_of_mem _ hmem)⟩
          rintro rfl
          exact hfirst (hsub.subset (hstays List.mem_cons_self))
      | some error =>
        obtain ⟨stays, hsub, hreports, hleaves⟩ := ih turns.tail hmoved
          (fun m' hm' => hback m' (List.mem_cons_of_mem _ hm')) hnodup
        refine ⟨m :: stays, hsub.cons_cons m, List.Forall₂.cons ?_ hreports, Leaves.cons hmore ?_⟩
        · exact reports_of_placed hmoved hapart (hback m List.mem_cons_self)
        · obtain ⟨rest, hrest, hplaced⟩ := hleaves
          refine ⟨rest, hrest, hplaced.congr fun m' => and_congr_right fun _ => ?_⟩
          constructor
          · intro hstays hmem
            rcases List.mem_cons.1 hmem with rfl | hmem
            · exact List.mem_cons_self
            · exact List.mem_cons_of_mem _ (hstays hmem)
          · intro hstays hmem
            refine (List.mem_cons.1 (hstays (List.mem_cons_of_mem _ hmem))).resolve_left ?_
            rintro rfl
            exact hfirst hmem

theorem moveAll_spec {start : Entries} {moves : List Move} (hapart : Apart S start moves)
    (rest : List Move) : ∀ (turns : List Turn) (done : List Move) {s : Entries}
      {arrived : List (Location × Entry)}, Placed S start moves (· ∈ done) arrived s → rest ⊆ moves →
      (done.reverse ++ rest).Nodup → match moveAll S turns s done rest with
        | (none, s') => Leaves S start moves (fun m => m ∈ done ∨ m ∈ rest) turns arrived s'
        | (some failed, s') => ∃ stays : List Move, List.Forall₂ (Reports S) failed.residual stays ∧
          Leaves S start moves (· ∈ stays) turns arrived s' ∧ failed.removed = [] ∧
            failed.error ≠ [] ∧ (failed.collision = true → failed.residual = []) := by
  induction rest with
  | nil =>
    intro turns done s arrived h hrest hnodup
    refine ⟨[], by simp, ?_⟩
    rw [List.append_nil]
    exact h.congr fun m => by simp
  | cons m rest ih =>
    intro turns done s arrived h hrest hnodup
    have hm : m ∈ moves := hrest List.mem_cons_self
    have hdone : m ∉ done := by
      intro hmem
      exact (List.nodup_append.1 hnodup).2.2 m (List.mem_reverse.2 hmem) m List.mem_cons_self rfl
    obtain ⟨more, hmore, hmoved⟩ := h.moveFile_forward hapart hm hdone (turns.headD {})
    unfold moveAll
    dsimp only
    cases hresult : moveFile S s (turns.headD {}) m.1 m.2 with
    | mk error s' =>
      rw [hresult] at hmoved
      cases error with
      | none =>
        have hnext := ih turns.tail (m :: done)
          (hmoved.congr fun m' => List.mem_cons.symm)
          (fun m' hm' => hrest (List.mem_cons_of_mem _ hm'))
          (by simpa using hnodup)
        dsimp only
        cases hall : moveAll S turns.tail s' (m :: done) rest with
        | mk result s'' =>
          rw [hall] at hnext
          cases result with
          | none =>
            obtain ⟨rest', hrest', hplaced⟩ := hnext
            refine Leaves.cons hmore ⟨rest', hrest', hplaced.congr fun m' => ?_⟩
            rw [List.mem_cons, List.mem_cons, or_left_comm, or_assoc]
          | some failed =>
            obtain ⟨stays, hreports, hleaves, hfailed⟩ := hnext
            exact ⟨stays, hreports, Leaves.cons hmore hleaves, hfailed⟩
      | some error =>
        obtain ⟨stays, hsub, hreports, hleaves⟩ := rollback_spec hapart done turns.tail
          hmoved (fun m' hm' => hm') (List.nodup_reverse.1 (List.nodup_append.1 hnodup).1)
        refine ⟨stays, hreports, Leaves.cons hmore ?_, rfl, ?_, ?_⟩
        · obtain ⟨rest', hrest', hplaced⟩ := hleaves
          refine ⟨rest', hrest', hplaced.congr fun m' => ?_⟩
          exact ⟨fun hstays => hstays.2 hstays.1, fun hmem => ⟨hsub.subset hmem, fun _ => hmem⟩⟩
        · exact List.append_ne_nil_of_left_ne_nil error.said _
        · intro hcollision
          exact List.isEmpty_iff.1 (Bool.and_eq_true_iff.1 hcollision).2

/-- Directories that were empty are gone, and nothing else. -/
structure Cleaned (s s' : Entries) : Prop where
  kept : ∀ l entry, s.get? l = some entry → s'.get? l = some entry ∨
    ∃ id, entry = .directory id ∧ ∀ l' entry', s'.get? l' = some entry' → l'.1 ≠ id
  only : ∀ l entry, s'.get? l = some entry → s.get? l = some entry

theorem Cleaned.refl (s : Entries) : Cleaned s s := ⟨fun _ _ h => .inl h, fun _ _ h => h⟩

theorem Cleaned.trans {s s' s'' : Entries} (h : Cleaned s s') (h' : Cleaned s' s'') :
    Cleaned s s'' where
  kept l entry hget := by
    rcases h.kept l entry hget with hkept | ⟨id, hid, hempty⟩
    · exact h'.kept l entry hkept
    · exact .inr ⟨id, hid, fun l' entry' hl' => hempty l' entry' (h'.only l' entry' hl')⟩
  only l entry hget := h.only l entry (h'.only l entry hget)

theorem cleaned_removeDir {s s' : Entries} {location : Location}
    (h : Entries.removeDir s location = .ok s') : Cleaned s s' := by
  obtain ⟨id, hdirectory, hempty, hget⟩ := Entries.removeDir_ok h
  have honly : ∀ l entry, s'.get? l = some entry → s.get? l = some entry := by
    intro l entry hl
    rw [hget] at hl
    split_ifs at hl
    exact hl
  refine ⟨fun l entry hl => ?_, honly⟩
  by_cases heq : l = location
  · subst heq
    obtain rfl := Option.some.inj (hdirectory.symm.trans hl)
    exact .inr ⟨id, rfl, fun l' entry' hl' => hempty l' entry' (honly l' entry' hl')⟩
  · exact .inl (by rw [hget, if_neg heq, hl])

theorem cleaned_removeParents (parents : List Text) : ∀ (fails : List Bool) (s : Entries),
    Cleaned s (removeParents S fails s parents).2 := by
  induction parents with
  | nil => exact fun fails s => Cleaned.refl s
  | cons parent parents ih =>
    intro fails s
    unfold removeParents
    dsimp only
    cases hremoved : (S.entryOf parent).bind fun l =>
        if fails.headD false then none else (Entries.removeDir s l).toOption with
    | none => exact ih fails.tail s
    | some s' =>
      obtain ⟨l, -, hl⟩ := Option.bind_eq_some_iff.1 hremoved
      split_ifs at hl
      cases hdir : Entries.removeDir s l with
      | error error =>
        rw [hdir] at hl
        cases hl
      | ok s'' =>
        rw [hdir] at hl
        obtain rfl := Option.some.inj hl
        exact (cleaned_removeDir hdir).trans (ih fails.tail s'')

/-! ## The promotion -/

theorem recheck_spec {s : Entries} {moves : List Move} :
    match recheck S s moves with
    | none => ∀ m ∈ moves, s.get? (S.locate m.2) = none
    | some (error, _) => error ≠ [] := by
  induction moves with
  | nil => exact fun m hm => absurd hm List.not_mem_nil
  | cons m moves ih =>
    unfold recheck
    cases S.queryError (S.locate m.2) with
    | some error => exact error.said
    | none =>
      dsimp only
      cases hget : s.get? (S.locate m.2) with
      | some entry =>
        show "promotion destination exists".toList ≠ []
        decide
      | none =>
        show match recheck S s moves with
          | none => _
          | some (error, _) => error ≠ []
        cases hrest : recheck S s moves with
        | none =>
          rw [hrest] at ih
          intro m' hm'
          rcases List.mem_cons.1 hm' with rfl | hm'
          · exact hget
          · exact ih m' hm'
        | some result =>
          rw [hrest] at ih
          exact ih

theorem Planned.apart {s start : Entries} {destination : Text} {plan : Plan}
    (h : Planned S s destination plan)
    (hinputs : ∀ m ∈ plan.moves, start.get? (S.locate m.1) = s.get? (S.locate m.1))
    (hfree : ∀ m ∈ plan.moves, start.get? (S.locate m.2) = none) : Apart S start plan.moves where
  files m hm := by
    rw [hinputs m hm]
    exact h.files m hm
  sources m hm m' hm' heq := List.inj_on_of_nodup_map h.sourcesDistinct hm hm' heq
  targets m hm m' hm' heq := by
    have hdistinct := h.targetsDistinct
    rw [h.destinations] at hdistinct
    exact List.inj_on_of_nodup_map hdistinct hm hm' (congrArg Prod.snd heq)
  between m hm m' hm' heq := by
    obtain ⟨content, hget⟩ := h.files m hm
    rw [heq, h.free m' hm'] at hget
    cases hget
  free := hfree

/-- What a promotion leaves: the inputs at their sources or targets, what others have put there, and
everything that was there, but for empty directories. `moved` are the inputs at their targets. -/
structure Promoted (S : System) (start : Entries) (turns : List Turn) (destination : Text)
    (moves : List Move) (moved : Move → Prop) (result : PromotionResult) (final : Entries) : Prop where
  /-- Nothing is lost or written over, and every input is in one place. -/
  placed : ∃ between, Leaves S start moves moved turns [] between ∧ Cleaned between final ∧
    (result.error ≠ [] → final = between)
  /-- Without success the residual map has the inputs that are at their targets. -/
  residual : result.error ≠ [] → ∃ stays : List Move, (∀ m, moved m ↔ m ∈ stays) ∧
    List.Forall₂ (Reports S) result.residual stays
  collision : result.collision = true → ∀ m ∈ moves, ¬ moved m
  restored : result.error ≠ [] → result.residual = [] → ∀ m ∈ moves, ¬ moved m
  success : result.error = [] → (∀ m ∈ moves, moved m) ∧
    (moves.map fun m => S.table.pathKey (plain m.2.text)).Nodup ∧
      ∀ m ∈ moves, m.2 = join destination m.2.name m.2.separators

/-- Nothing is moved before an error. -/
theorem promoted_unmoved (S : System) (start : Entries) (turns : List Turn) (destination : Text)
    (moves : List Move) {error : Text} (herror : error ≠ []) (collision : Bool) :
    Promoted S start turns destination moves (fun _ => False) ⟨[], [], [], error, collision⟩ start where
  placed := ⟨start, ⟨[], by simp, Placed.start_placed S start moves⟩, Cleaned.refl start, fun _ => rfl⟩
  residual _ := ⟨[], by simp, List.Forall₂.nil⟩
  collision _ _ _ h := h
  restored _ _ _ _ h := h
  success h := absurd h herror

theorem Planned.targetKeys {s : Entries} {destination : Text} {plan : Plan}
    (h : Planned S s destination plan) :
    (plan.moves.map fun m => S.table.pathKey (plain m.2.text)).Nodup := by
  have hdistinct := h.targetsDistinct
  rw [h.destinations] at hdistinct
  have hmoves : plan.moves.Nodup := List.Nodup.of_map _ hdistinct
  refine hmoves.map_on fun m hm m' hm' heq => List.inj_on_of_nodup_map hdistinct hm hm' ?_
  rw [h.inside m hm, h.inside m' hm'] at heq
  exact (key_join_iff S.table destination m.2.separators m'.2.separators).1 heq

theorem promotion_spec {before start : Entries} {destination : Text} {next : Nat}
    {paths : List PathBuf} {plan : Plan}
    (hplan : planPromotionMoves S before destination next paths = .ok plan)
    (hinputs : ∀ m ∈ plan.moves, start.get? (S.locate m.1) = before.get? (S.locate m.1))
    (beforeMove : Option IoError) (turns : List Turn) (fails : List Bool) :
    (plan.moves.map fun m => S.locate m.1).Nodup ∧
    (∀ source, .file source ∈ paths → S.queryError (S.locate source) = none →
      (before.get? (S.locate source)).isSome = true →
        ∃ m ∈ plan.moves, S.locate m.1 = S.locate source) ∧
    ∃ moved, Promoted S start turns destination plan.moves moved
      (promote S start destination beforeMove turns fails plan.moves).1
      (promote S start destination beforeMove turns fails plan.moves).2 := by
  obtain ⟨hplanned, hcovered⟩ := planned hplan
  refine ⟨hplanned.sourcesDistinct, hcovered, ?_⟩
  have hrecheck := @recheck_spec S start plan.moves
  unfold promote
  cases hchecked : recheck S start plan.moves with
  | some result =>
    rw [hchecked] at hrecheck
    exact ⟨_, promoted_unmoved S start turns destination plan.moves hrecheck result.2⟩
  | none =>
    rw [hchecked] at hrecheck
    cases beforeMove with
    | some error => exact ⟨_, promoted_unmoved S start turns destination plan.moves error.said false⟩
    | none =>
      have hmoves : plan.moves.Nodup := List.Nodup.of_map _ hplanned.sourcesDistinct
      have hall := moveAll_spec (hplanned.apart hinputs hrecheck) plan.moves turns []
        ((Placed.start_placed S start plan.moves).congr fun m => by simp)
        (List.Subset.refl _) (by simpa using hmoves)
      dsimp only
      cases hresult : moveAll S turns start [] plan.moves with
      | mk result between =>
        rw [hresult] at hall
        cases result with
        | some failed =>
          obtain ⟨stays, hreports, hleaves, -, herror, hcollision⟩ := hall
          have hstays : failed.residual = [] → ∀ m ∈ plan.moves, m ∉ stays := by
            intro hempty m _ hm
            rw [hempty] at hreports
            cases hreports
            exact List.not_mem_nil hm
          refine ⟨(· ∈ stays), ⟨between, hleaves, Cleaned.refl between, fun _ => rfl⟩,
            fun _ => ⟨stays, fun m => Iff.rfl, hreports⟩, fun h => hstays (hcollision h),
            fun _ => hstays, fun h => absurd h herror⟩
        | none =>
          refine ⟨(· ∈ plan.moves), ⟨between, ?_, cleaned_removeParents _ _ _, fun h => absurd rfl h⟩,
            fun h => absurd rfl h, fun h => absurd h Bool.false_ne_true, fun h => absurd rfl h,
            fun _ => ⟨fun m hm => hm, hplanned.targetKeys, hplanned.inside⟩⟩
          obtain ⟨more, hmore, hplaced⟩ := hall
          exact ⟨more, hmore, hplaced.congr fun m => by simp⟩

/-! ## One archive -/

theorem replicate_append_cons {d d' : Nat} {l l' : Text}
    (h : List.replicate d 'a' ++ '\\' :: l = List.replicate d' 'a' ++ '\\' :: l') : d = d' ∧ l = l' := by
  induction d generalizing d' with
  | zero =>
    cases d' with
    | zero => exact ⟨rfl, (List.cons.inj h).2⟩
    | succ d' => exact absurd (List.cons.inj h).1 (by decide)
  | succ d ih =>
    cases d' with
    | zero => exact absurd (List.cons.inj h).1 (by decide)
    | succ d' =>
      obtain ⟨hd, hl⟩ := ih (List.cons.inj h).2
      exact ⟨congrArg Nat.succ hd, hl⟩

/-- Directories are told apart by the length of their spelling. -/
def twoDirectories : System where
  table := .asciiOnly
  directory path := path.length
  entryOf _ := none
  canonical l := List.replicate l.1 'a' ++ '\\' :: l.2
  canonicalDirectory path := path
  queryError _ := none
  canonical_key d d' name name' h := by
    have hkey : ∀ (d : Nat) (name : Text), DowncaseTable.asciiOnly.pathKey
        (List.replicate d 'a' ++ '\\' :: DowncaseTable.asciiOnly.pathKey name) =
          List.replicate d 'a' ++ '\\' :: DowncaseTable.asciiOnly.pathKey name := by
      intro d name
      rw [DowncaseTable.pathKey_eq_map, List.map_append, List.map_replicate, List.map_cons,
        ← DowncaseTable.pathKey_eq_map, DowncaseTable.pathKey_idem]
      rfl
    dsimp only at h
    rw [hkey, hkey] at h
    obtain ⟨hd, hname⟩ := replicate_append_cons h
    rw [hd, hname]

def blockedArchive (directory : Text) : FilePath := join directory ['a', '.', 'z'] (by simp)

def blockedEntries : Entries := (∅ : Entries).set (1, ['a', '.', 'z']) (.file 7)

def blockedPlan : Plan where
  sources := [['a', '\\', 'a', '.', 'z']]
  destinations := [['a', '.', 'z']]
  moves := [(blockedArchive ['i'], blockedArchive ['o', 'u'])]

theorem promotion_spec_blockedPlan : ∃ moved,
    Promoted twoDirectories blockedEntries [] ['o', 'u'] blockedPlan.moves moved
      (promote twoDirectories blockedEntries ['o', 'u'] none [] [] blockedPlan.moves).1
      (promote twoDirectories blockedEntries ['o', 'u'] none [] [] blockedPlan.moves).2 := by
  have hplan : planPromotionMoves twoDirectories blockedEntries ['o', 'u'] 0
    [.file (blockedArchive ['i'])] = .ok blockedPlan := rfl
  exact (promotion_spec hplan (fun _ _ => rfl) none [] []).2.2

end Sunpack.Postprocess
