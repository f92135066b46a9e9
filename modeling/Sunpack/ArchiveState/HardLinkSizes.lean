import Sunpack.ArchiveState.LinkChains

/-!
# What the hard links of an archive lead to

A hard link stands for the last member of its target's name before it, or else for the first one.
`tarHardLinkSizes` follows this rule on the members of an archive.
-/

namespace Sunpack.ArchiveState

open Lib OutputPaths.Verifier

/-! ## The rule -/

def Placed.isHardLink (m : Placed) : Bool := m.isFile && m.hardLink.isSome

/-- The manifest has an entry for the member. -/
def Placed.isListed (m : Placed) : Bool := m.isFile && m.path.isSome

/-- The member has the name that a link's target gives. -/
def Placed.isNamed (name : Text) (m : Placed) : Bool :=
  m.isFile && m.path.any fun path =>
    cleanRelativeArchivePath path == cleanRelativeArchivePath name

namespace TarWalk

variable (w : TarWalk)

def hardLinks : List Placed := w.members.filter Placed.isHardLink

def listed : List Placed := w.members.filter Placed.isListed

/-- The member that a hard link stands for. -/
def source (m : Placed) : Option Placed :=
  if m.isFile then
    m.hardLink.bind fun target =>
      latestOrFirst (fun c => c.offset < m.offset) (w.members.filter (Placed.isNamed target))
  else none

/-- The target of a hard link is unsafe, empty or absent. -/
def BadTarget (m : Placed) : Prop :=
  ∃ target, m.hardLink = some target ∧
    (unsafeArchivePath target = true ∨ target = [] ∨ ∀ c ∈ w.members, ¬ c.isNamed target)

/-- Following the links from a member ends at a file with this size. -/
def HasSize (m : Placed) (size : Nat) : Prop :=
  ∃ f ∈ w.members, EndsAt w.source m f ∧ f.isFile ∧ f.hardLink = none ∧ f.size = size

/-- What the manifest's walk hands over, and the answer. -/
def sizes : Except String (Nat × List Nat) :=
  tarHardLinkSizes w.members (rowsOf w.members).links (rowsOf w.members).entries

end TarWalk

/-! ## The names that links ask for -/

section requests

theorem requestTargets_eq_none {links : List TarHardLink} (index : Nat) (r : Requests) :
    requestTargets links index r = none ↔
      ∃ link ∈ links, (unsafeArchivePath link.target || link.target.isEmpty) = true := by
  induction links generalizing index r with
  | nil => simp [requestTargets]
  | cons link links ih =>
    rw [requestTargets, List.exists_mem_cons_iff]
    by_cases h : (unsafeArchivePath link.target || link.target.isEmpty) = true
    · rw [if_pos h]
      simp only [h, true_or]
    · rw [if_neg h, ih]
      simp only [h, Bool.false_eq_true, false_or]

/-- Exactly the names of the targets are asked for, and links are found by their offsets. -/
theorem requestTargets_eq_some {links : List TarHardLink} {index : Nat} {r r' : Requests}
    (h : requestTargets links index r = some r') :
    r'.targets = (links.map fun link => cleanRelativeArchivePath link.target).foldl
        Dict.orDefault r.targets ∧
      r'.linkOffsets = r.linkOffsets.indexFrom (links.map (·.offset)) index := by
  induction links generalizing index r with
  | nil =>
    obtain rfl := Option.some.inj h
    exact ⟨rfl, rfl⟩
  | cons link links ih =>
    rw [requestTargets] at h
    split_ifs at h with hbad
    exact ih h

end requests

/-! ## The second walk -/

def Placed.target (linkOffsets : Dict Nat Nat) (m : Placed) : Target :=
  ⟨m.offset, m.size, linkOffsets.get? m.offset⟩

theorem get?_addCandidate (linkOffsets : Dict Nat Nat) (targets : Dict Text (List Target))
    (m : Placed) (name : Text) :
    (addCandidate linkOffsets targets m).get? (cleanRelativeArchivePath name) =
      (targets.get? (cleanRelativeArchivePath name)).map fun candidates =>
        candidates ++ if m.isNamed name then [m.target linkOffsets] else [] := by
  unfold addCandidate Placed.isNamed
  cases hfile : m.isFile with
  | false => simp
  | true =>
    cases hpath : m.path with
    | none => simp
    | some path =>
      simp only [if_true, Option.any_some, Bool.true_and, beq_iff_eq]
      cases hget : targets.get? (cleanRelativeArchivePath path) with
      | none =>
        simp only
        by_cases heq : cleanRelativeArchivePath path = cleanRelativeArchivePath name
        · rw [← heq, hget, Option.map_none]
        · simp [heq]
      | some candidates =>
        simp only
        by_cases heq : cleanRelativeArchivePath path = cleanRelativeArchivePath name
        · rw [← heq, Dict.get?_set_self, hget, Option.map_some, if_pos rfl]
          rfl
        · rw [Dict.get?_set_of_ne _ (Ne.symm heq), if_neg heq]
          simp

theorem get?_candidates (linkOffsets : Dict Nat Nat) (members : List Placed)
    (targets : Dict Text (List Target)) (name : Text) :
    (members.foldl (addCandidate linkOffsets) targets).get? (cleanRelativeArchivePath name) =
      (targets.get? (cleanRelativeArchivePath name)).map fun candidates =>
        candidates ++ (members.filter (Placed.isNamed name)).map (Placed.target linkOffsets) := by
  induction members generalizing targets with
  | nil => simp
  | cons m members ih =>
    rw [List.foldl_cons, ih, get?_addCandidate, Option.map_map]
    cases hnamed : m.isNamed name <;> simp [hnamed, Function.comp_def]

/-! ## The first walk -/

/-- The hard link of a member, with its place in the manifest. -/
def linkOf (listed : List Placed) (m : Placed) : TarHardLink :=
  ⟨m.offset, m.hardLink.getD [], m.path.map fun _ => listed.idxOf m⟩

theorem linkOf_append {listed : List Placed} {m : Placed} (more : List Placed)
    (h : m.path.isSome → m ∈ listed) : linkOf (listed ++ more) m = linkOf listed m := by
  unfold linkOf
  cases hpath : m.path with
  | none => rfl
  | some path =>
    rw [hpath] at h
    rw [Option.map_some, Option.map_some, List.idxOf_append_of_mem (h rfl)]

theorem rowsOf_eq {members : List Placed} (hnodup : members.Nodup) :
    rowsOf members =
      ⟨(members.filter Placed.isHardLink).map (linkOf (members.filter Placed.isListed)),
        (members.filter Placed.isListed).map (·.size)⟩ := by
  induction members using List.reverseRecOn with
  | nil => rfl
  | append_singleton members m ih =>
    obtain ⟨hmembers, -, hdisjoint⟩ := List.nodup_append.1 hnodup
    have hnew : m ∉ members := fun hmem => hdisjoint m hmem m List.mem_cons_self rfl
    have hrows : rowsOf (members ++ [m]) = (rowsOf members).record m := by
      rw [rowsOf, List.foldl_append]
      rfl
    have hkeep (more : List Placed) :
        (members.filter Placed.isHardLink).map
            (linkOf (members.filter Placed.isListed ++ more)) =
          (members.filter Placed.isHardLink).map (linkOf (members.filter Placed.isListed)) := by
      refine List.map_congr_left fun a ha => linkOf_append more fun hpath => ?_
      obtain ⟨hmem, hlink⟩ := List.mem_filter.1 ha
      have hfile : a.isFile = true := (Bool.and_eq_true_iff.1 hlink).1
      exact List.mem_filter.2 ⟨hmem, Bool.and_eq_true_iff.2 ⟨hfile, hpath⟩⟩
    have hindex (more : List Placed) :
        (members.filter Placed.isListed ++ m :: more).idxOf m =
          (members.filter Placed.isListed).length := by
      rw [List.idxOf_append_of_notMem fun hmem => hnew (List.mem_filter.1 hmem).1]
      simp
    rw [hrows, ih hmembers, Rows.record, List.filter_append, List.filter_append, List.map_append,
      List.map_append, hkeep]
    cases hfile : m.isFile with
    | false => simp [Placed.isHardLink, Placed.isListed, hfile]
    | true =>
      cases hpath : m.path with
      | none =>
        cases hlink : m.hardLink with
        | none => simp [Placed.isHardLink, Placed.isListed, hfile, hpath, hlink]
        | some target => simp [Placed.isHardLink, Placed.isListed, hfile, hpath, hlink, linkOf]
      | some path =>
        cases hlink : m.hardLink with
        | none => simp [Placed.isHardLink, Placed.isListed, hfile, hpath, hlink]
        | some target =>
          simp [Placed.isHardLink, Placed.isListed, hfile, hpath, hlink, linkOf, hindex]

/-! ## The sources of the links -/

theorem mapM_eq_some {α β : Type} {f : α → Option β} {l : List α} {r : List β} :
    l.mapM f = some r ↔ l.map f = r.map some := by
  induction l generalizing r with
  | nil => cases r <;> simp
  | cons a l ih =>
    rw [List.mapM_cons]
    cases hf : f a with
    | none => cases r <;> simp [hf]
    | some b =>
      cases hl : l.mapM f with
      | none =>
        have hno (r : List β) : l.map f ≠ r.map some := fun h => by
          rw [← ih, hl] at h
          exact absurd h (by simp)
        cases r <;> simp [hf, hno]
      | some r' =>
        have hr' := ih.1 hl
        cases r with
        | nil => simp
        | cons c r =>
          simp only [Option.bind_eq_bind, Option.bind_some, Option.pure_def, Option.some.injEq,
            List.cons.injEq, List.map_cons, hf, hr']
          rw [(List.map_injective_iff.2 (Option.some_injective β)).eq_iff]

theorem exists_of_mapM_eq_none {α β : Type} {f : α → Option β} {l : List α}
    (h : l.mapM f = none) : ∃ a ∈ l, f a = none := by
  induction l with
  | nil => exact absurd h (by simp)
  | cons a l ih =>
    rw [List.mapM_cons] at h
    cases hf : f a with
    | none => exact ⟨a, List.mem_cons_self, hf⟩
    | some b =>
      cases hl : l.mapM f with
      | none =>
        obtain ⟨c, hc, hnone⟩ := ih hl
        exact ⟨c, List.mem_cons_of_mem _ hc, hnone⟩
      | some r => simp [hf, hl] at h

namespace TarWalk

variable {w : TarWalk}

theorem offsets_nodup (w : TarWalk) : (w.members.map (·.offset)).Nodup := by
  rw [List.Nodup, List.pairwise_map]
  exact w.ordered.imp fun h => ne_of_lt h

/-- Members are told apart by their offsets. -/
theorem eq_of_offset {a b : Placed} (ha : a ∈ w.members) (hb : b ∈ w.members)
    (h : a.offset = b.offset) : a = b :=
  List.inj_on_of_nodup_map w.offsets_nodup ha hb h

theorem mem_of_source {m d : Placed} (h : w.source m = some d) :
    d ∈ w.members ∧ d.isFile = true := by
  unfold source at h
  split_ifs at h
  obtain ⟨target, -, h⟩ := Option.bind_eq_some_iff.1 h
  obtain ⟨hmem, hnamed⟩ := List.mem_filter.1 (mem_of_latestOrFirst h)
  exact ⟨hmem, (Bool.and_eq_true_iff.1 hnamed).1⟩

theorem source_of_regular {m : Placed} (h : m.hardLink = none) : w.source m = none := by
  rw [source, h, Option.bind_none, ite_self]

/-- The links as `tar_hard_link_sizes` gets them. -/
def links (w : TarWalk) : List TarHardLink := w.hardLinks.map (linkOf w.listed)

theorem rows_eq (w : TarWalk) : rowsOf w.members = ⟨w.links, w.listed.map (·.size)⟩ :=
  rowsOf_eq (w.offsets_nodup.of_map _)

theorem mem_hardLinks {m : Placed} :
    m ∈ w.hardLinks ↔ m ∈ w.members ∧ m.isFile = true ∧ ∃ target, m.hardLink = some target := by
  rw [hardLinks, List.mem_filter, Placed.isHardLink, Bool.and_eq_true_iff,
    Option.isSome_iff_exists]

theorem links_offsets_nodup (w : TarWalk) : (w.links.map (·.offset)).Nodup := by
  rw [links, List.map_map]
  exact w.offsets_nodup.sublist (List.filter_sublist.map _)

variable {r : Requests}

/-- The second walk finds the member that a link stands for. -/
theorem sourceOf_eq (h : requestTargets w.links 0 ⟨∅, ∅⟩ = some r) {m : Placed}
    (hm : m ∈ w.hardLinks) :
    sourceOf (w.members.foldl (addCandidate r.linkOffsets) r.targets) (linkOf w.listed m) =
      (w.source m).map (Placed.target r.linkOffsets) := by
  obtain ⟨-, hfile, target, htarget⟩ := mem_hardLinks.1 hm
  have hlink : (linkOf w.listed m).target = target := by rw [linkOf, htarget, Option.getD_some]
  have hasked : r.targets.get? (cleanRelativeArchivePath target) = some [] := by
    rw [(requestTargets_eq_some h).1, Dict.get?_foldl_orDefault, if_pos]
    · rfl
    · rw [← hlink]
      exact List.mem_map_of_mem (List.mem_map_of_mem hm)
  have hbefore : ((fun c : Target => decide (c.offset < m.offset)) ∘ Placed.target r.linkOffsets) =
      fun c : Placed => decide (c.offset < m.offset) := rfl
  rw [sourceOf, hlink, get?_candidates, hasked, Option.map_some, Option.bind_some,
    List.nil_append, source, if_pos hfile, htarget, Option.bind_some, ← hbefore,
    ← latestOrFirst_map, ← getElem?_partition]
  · show _[if 0 < _ then _ else 0]? = _
    congr 1
    split_ifs with hpos
    · rfl
    · exact (congrArg (· - 1) (Nat.eq_zero_of_not_pos hpos)).symm
  · rw [List.pairwise_map]
    refine (w.ordered.sublist List.filter_sublist).imp fun hab hb => ?_
    rw [decide_eq_true_eq] at hb ⊢
    exact lt_trans hab hb

theorem exists_bad_iff :
    (∃ link ∈ w.links, (unsafeArchivePath link.target || link.target.isEmpty) = true) ↔
      ∃ m ∈ w.hardLinks, ∃ target, m.hardLink = some target ∧
        (unsafeArchivePath target = true ∨ target = []) := by
  simp only [links, List.mem_map, exists_exists_and_eq_and]
  refine exists_congr fun m => and_congr_right fun hm => ?_
  obtain ⟨-, -, target, htarget⟩ := mem_hardLinks.1 hm
  rw [linkOf, htarget]
  simp

/-- What the marks at the offsets say: a source is a link if and only if it has an index, and that
is its own. -/
theorem get?_linkOffsets (h : requestTargets w.links 0 ⟨∅, ∅⟩ = some r) {d : Placed}
    (hd : d ∈ w.members) {j : Nat} :
    r.linkOffsets.get? d.offset = some j ↔ w.hardLinks[j]? = some d := by
  have hoffsets : w.links.map (·.offset) = w.hardLinks.map (·.offset) := by
    rw [links, List.map_map]
    rfl
  rw [(requestTargets_eq_some h).2, Dict.get?_indexFrom_iff w.links_offsets_nodup, hoffsets,
    List.getElem?_map, Option.map_eq_some_iff]
  constructor
  · rintro ⟨m, hm, hoffset⟩
    rwa [← eq_of_offset (mem_hardLinks.1 (List.mem_of_getElem? hm)).1 hd hoffset]
  · exact fun hj => ⟨d, hj, rfl⟩

variable {sources : List Target}

/-- The sources of the links are the members they stand for, with their marks. -/
theorem source_of_sources
    (hsources : w.hardLinks.map (fun m => (w.source m).map (Placed.target r.linkOffsets)) =
      sources.map some) {i : Nat} {m : Placed} (hm : w.hardLinks[i]? = some m) :
    ∃ d, w.source m = some d ∧ sources[i]? = some (d.target r.linkOffsets) := by
  have hi : (sources.map some)[i]? = some ((w.source m).map (Placed.target r.linkOffsets)) := by
    rw [← hsources, List.getElem?_map, hm, Option.map_some]
  rw [List.getElem?_map] at hi
  obtain ⟨s, hs, heq⟩ := Option.map_eq_some_iff.1 hi
  obtain ⟨d, hd, rfl⟩ := Option.map_eq_some_iff.1 heq.symm
  exact ⟨d, hd, hs⟩

section graph

variable (h : requestTargets w.links 0 ⟨∅, ∅⟩ = some r)
  (hsources : w.hardLinks.map (fun m => (w.source m).map (Placed.target r.linkOffsets)) =
    sources.map some)

include h hsources

/-- A step between links is a step between members. -/
theorem source_of_nextLink {i j : Nat} {m : Placed} (hm : w.hardLinks[i]? = some m)
    (hj : nextLink sources i = some j) :
    ∃ d, w.source m = some d ∧ w.hardLinks[j]? = some d := by
  obtain ⟨d, hd, hs⟩ := source_of_sources hsources hm
  rw [nextLink, hs, Option.bind_some] at hj
  exact ⟨d, hd, (get?_linkOffsets h (mem_of_source hd).1).1 hj⟩

theorem closed_sources : Closed sources := by
  intro i j hj
  have hlength : w.hardLinks.length = sources.length := by
    simpa using congrArg List.length hsources
  obtain ⟨s, hs, -⟩ := Option.bind_eq_some_iff.1 hj
  have hi : i < w.hardLinks.length := hlength ▸ (List.getElem?_eq_some_iff.1 hs).1
  obtain ⟨d, -, hd⟩ := source_of_nextLink h hsources (List.getElem?_eq_getElem hi) hj
  exact hlength ▸ (List.getElem?_eq_some_iff.1 hd).1

/-- The size at the end of a chain of links is the size of the file at the end of the chain of
members. -/
theorem hasSize_of_endsWith {i size : Nat} {m : Placed} (hm : w.hardLinks[i]? = some m)
    (hends : EndsWith sources i size) : w.HasSize m size := by
  obtain ⟨e, s, hend, hs, rfl⟩ := hends
  obtain ⟨m', hreach, hm'⟩ := reaches_image
    (R := fun i m => w.hardLinks[i]? = some m) (fun _ _ _ => source_of_nextLink h hsources)
    hm hend.reaches
  obtain ⟨d, hd, hs'⟩ := source_of_sources hsources hm'
  obtain rfl := Option.some.inj (hs'.symm.trans hs)
  obtain ⟨hmem, hfile⟩ := mem_of_source hd
  -- the source of the last link is not a link
  have hregular : d.hardLink = none := by
    cases hlink : d.hardLink with
    | none => rfl
    | some target =>
      obtain ⟨j, hj⟩ := List.mem_iff_getElem?.1 (mem_hardLinks.2 ⟨hmem, hfile, target, hlink⟩)
      have hnext : nextLink sources e = some j := by
        rw [nextLink, hs', Option.bind_some]
        exact (get?_linkOffsets h hmem).2 hj
      exact absurd (hend.next_eq_none.symm.trans hnext) (by simp)
  exact ⟨d, hmem, .extend hreach (.step hd (.stop (source_of_regular hregular))), hfile, hregular,
    rfl⟩

theorem runsIntoCycle_of_links {i : Nat} {m : Placed} (hm : w.hardLinks[i]? = some m)
    (hcycle : RunsIntoCycle (nextLink sources) i) : RunsIntoCycle w.source m :=
  hcycle.image (R := fun i m => w.hardLinks[i]? = some m)
    (fun _ _ _ => source_of_nextLink h hsources)
    (fun _ _ _ ha hb => Option.some.inj (ha.symm.trans hb)) hm

end graph

/-! ## The entries -/

theorem HasSize.of_regular {m : Placed} (hm : m ∈ w.members) (hfile : m.isFile = true)
    (hlink : m.hardLink = none) : w.HasSize m m.size :=
  ⟨m, hm, .stop (source_of_regular hlink), hfile, hlink, rfl⟩

theorem HasSize.not_runsIntoCycle {m : Placed} {size : Nat} (h : w.HasSize m size) :
    ¬ RunsIntoCycle w.source m := by
  obtain ⟨f, -, hend, -⟩ := h
  exact hend.not_runsIntoCycle

/-- The entries have the sizes of their members, those of some hard links apart. -/
def Entered (w : TarWalk) (pending : List Placed) (entries : List Nat) : Prop :=
  entries.length = w.listed.length ∧
    ∀ (k : Nat) (m : Placed) (size : Nat), w.listed[k]? = some m →
      entries[k]? = some size → m ∉ pending → w.HasSize m size

theorem Entered.setEntry {m : Placed} {pending : List Placed} {entries : List Nat} {size : Nat}
    (h : w.Entered (m :: pending) entries) (hsize : w.HasSize m size) :
    w.Entered pending (setEntry entries (linkOf w.listed m) size) := by
  obtain ⟨hlength, hright⟩ := h
  unfold ArchiveState.setEntry
  cases hpath : m.path with
  | none =>
    simp only [linkOf, hpath, Option.map_none]
    refine ⟨hlength, fun k a v ha hv hmem => hright k a v ha hv ?_⟩
    rw [List.mem_cons, not_or]
    refine ⟨?_, hmem⟩
    rintro rfl
    have hlisted := (List.mem_filter.1 (List.mem_of_getElem? ha)).2
    rw [Placed.isListed, hpath] at hlisted
    exact absurd hlisted (by simp)
  | some path =>
    simp only [linkOf, hpath, Option.map_some]
    refine ⟨(List.length_set ..).trans hlength, fun k a v ha hv hmem => ?_⟩
    by_cases hk : w.listed.idxOf m = k
    · -- the entry of the link itself
      obtain ⟨hlt, hget⟩ := List.getElem?_eq_some_iff.1 ha
      have ham : a = m := by
        subst hk
        rw [← hget, List.getElem_idxOf]
      subst hk
      rw [List.getElem?_set_self (hlength ▸ hlt)] at hv
      rw [ham, ← Option.some.inj hv]
      exact hsize
    · rw [List.getElem?_set_ne hk] at hv
      refine hright k a v ha hv ?_
      rw [List.mem_cons, not_or]
      refine ⟨?_, hmem⟩
      rintro rfl
      obtain ⟨hlt, hget⟩ := List.getElem?_eq_some_iff.1 ha
      have hnodup : w.listed.Nodup := (w.offsets_nodup.of_map _).sublist List.filter_sublist
      apply hk
      rw [← hget]
      exact hnodup.idxOf_getElem k hlt

theorem Entered.setEntries {pending : List Placed} {entries found : List Nat}
    (h : w.Entered pending entries) (hfound : List.Forall₂ w.HasSize pending found) :
    w.Entered [] (setEntries entries (pending.map (linkOf w.listed)) found) := by
  induction hfound generalizing entries with
  | nil => exact h
  | cons hsize _ ih => exact ih (h.setEntry hsize)

theorem Entered.forall₂ {entries : List Nat} (h : w.Entered [] entries) :
    List.Forall₂ w.HasSize w.listed entries := by
  rw [List.forall₂_iff_get]
  refine ⟨h.1.symm, fun i hi hi' => ?_⟩
  exact h.2 i _ _ (List.getElem?_eq_getElem hi) (List.getElem?_eq_getElem hi') (by simp)

theorem entered (w : TarWalk) : w.Entered w.hardLinks (w.listed.map (·.size)) := by
  refine ⟨List.length_map .., fun k m size hm hsize hlink => ?_⟩
  rw [List.getElem?_map, hm, Option.map_some] at hsize
  obtain rfl := Option.some.inj hsize
  obtain ⟨hmem, hlisted⟩ := List.mem_filter.1 (List.mem_of_getElem? hm)
  have hfile : m.isFile = true := (Bool.and_eq_true_iff.1 hlisted).1
  refine .of_regular hmem hfile ?_
  cases htarget : m.hardLink with
  | none => rfl
  | some target => exact absurd (mem_hardLinks.2 ⟨hmem, hfile, target, htarget⟩) hlink

/-! ## The answer -/

/-- Every hard link stands for something if and only if no target is absent. -/
theorem source_eq_none {m : Placed} {target : Text} (hfile : m.isFile = true)
    (hlink : m.hardLink = some target) :
    w.source m = none ↔ ∀ c ∈ w.members, ¬ c.isNamed target = true := by
  rw [source, if_pos hfile, hlink, Option.bind_some, latestOrFirst_eq_none, List.filter_eq_nil_iff]

theorem exists_source_none_iff :
    (∃ m ∈ w.hardLinks, w.BadTarget m) ↔
      (∃ link ∈ w.links, (unsafeArchivePath link.target || link.target.isEmpty) = true) ∨
        ∃ m ∈ w.hardLinks, w.source m = none := by
  rw [exists_bad_iff]
  constructor
  · rintro ⟨m, hm, target, htarget, hbad⟩
    rcases hbad with hbad | hbad | hbad
    · exact .inl ⟨m, hm, target, htarget, .inl hbad⟩
    · exact .inl ⟨m, hm, target, htarget, .inr hbad⟩
    · exact .inr ⟨m, hm, (source_eq_none (mem_hardLinks.1 hm).2.1 htarget).2 hbad⟩
  · rintro (⟨m, hm, target, htarget, hbad⟩ | ⟨m, hm, hnone⟩)
    · exact ⟨m, hm, target, htarget, hbad.imp id .inl⟩
    · obtain ⟨-, hfile, target, htarget⟩ := mem_hardLinks.1 hm
      exact ⟨m, hm, target, htarget, .inr (.inr ((source_eq_none hfile htarget).1 hnone))⟩

/-- The answer of the links that do not fail. -/
structure Answer (w : TarWalk) (total : Nat) (entries : List Nat) : Prop where
  entries : List.Forall₂ w.HasSize w.listed entries
  total : ∃ found, List.Forall₂ w.HasSize w.hardLinks found ∧
    total = min found.sum (2 ^ 64 - 1)

theorem linkSizes_of_sources (h : requestTargets w.links 0 ⟨∅, ∅⟩ = some r)
    (hsources : w.hardLinks.map (fun m => (w.source m).map (Placed.target r.linkOffsets)) =
      sources.map some) (s : Sizing)
    (hs : s = ⟨List.replicate w.links.length none, List.replicate w.links.length false, 0,
      w.listed.map (·.size)⟩) :
    (sizeLinks sources w.links 0 s = none → ∃ m ∈ w.hardLinks, RunsIntoCycle w.source m) ∧
      ∀ s', sizeLinks sources w.links 0 s = some s' → w.Answer s'.total s'.entries := by
  have hlength : w.links.length = sources.length := by
    have := congrArg List.length hsources
    rwa [List.length_map, List.length_map, ← List.length_map (linkOf w.listed)] at this
  have hhard : w.hardLinks.length = sources.length := by
    rw [← hlength, links, List.length_map]
  obtain ⟨hnone, hsome⟩ := sizeLinks_spec (closed_sources h hsources) w.links 0 s (by omega)
    (by
      rw [hs]
      refine ⟨by rw [List.length_replicate, hlength], fun i size hi => ?_⟩
      rw [List.getElem?_replicate] at hi
      split_ifs at hi
      exact absurd hi (by simp))
    (by
      rw [hs]
      refine ⟨by rw [List.length_replicate, hlength], fun i hi => ?_⟩
      rw [List.getElem?_replicate] at hi
      split_ifs at hi
      exact absurd hi (by simp))
  refine ⟨fun hfail => ?_, fun s' hdone => ?_⟩
  · obtain ⟨i, -, hi, hcycle⟩ := hnone hfail
    have hlt : i < w.hardLinks.length := by omega
    exact ⟨w.hardLinks[i], List.getElem_mem hlt,
      runsIntoCycle_of_links h hsources (List.getElem?_eq_getElem hlt) hcycle⟩
  · obtain ⟨found, hends, htotal, hentries⟩ := hsome s' hdone
    have hfound : List.Forall₂ w.HasSize w.hardLinks found := by
      rw [List.forall₂_iff_get] at hends ⊢
      obtain ⟨hcount, hends⟩ := hends
      refine ⟨by rwa [List.length_range', hlength, ← hhard] at hcount, fun i hi hi' => ?_⟩
      have hend := hends i (by rw [List.length_range']; omega) hi'
      simp only [List.get_eq_getElem, List.getElem_range', Nat.zero_add, Nat.one_mul] at hend
      exact hasSize_of_endsWith h hsources (List.getElem?_eq_getElem hi) hend
    refine ⟨?_, found, hfound, ?_⟩
    · rw [hentries, hs]
      exact (w.entered.setEntries hfound).forall₂
    · have hzero : s.total = 0 := by rw [hs]
      rw [htotal, hzero, foldl_sat64 _ (by omega), Nat.zero_add]

theorem Answer.not_runsIntoCycle {total : Nat} {entries : List Nat}
    (h : w.Answer total entries) {m : Placed} (hm : m ∈ w.hardLinks) :
    ¬ RunsIntoCycle w.source m := by
  obtain ⟨found, hfound, -⟩ := h.total
  obtain ⟨i, hi, rfl⟩ := List.mem_iff_getElem.1 hm
  obtain ⟨hlength, hget⟩ := List.forall₂_iff_get.1 hfound
  exact (hget i hi (hlength ▸ hi)).not_runsIntoCycle

theorem linkSizes_spec (w : TarWalk) :
    (linkSizes w.members w.links (w.listed.map (·.size)) = none ↔
        (∃ m ∈ w.hardLinks, w.BadTarget m) ∨ ∃ m ∈ w.hardLinks, RunsIntoCycle w.source m) ∧
      ∀ answer, linkSizes w.members w.links (w.listed.map (·.size)) = some answer →
        w.Answer answer.1 answer.2 := by
  rw [exists_source_none_iff, linkSizes]
  cases h : requestTargets w.links 0 ⟨∅, ∅⟩ with
  | none =>
    have hname := (requestTargets_eq_none _ _).1 h
    exact ⟨⟨fun _ => .inl (.inl hname), fun _ => rfl⟩, fun _ hok => absurd hok (by simp)⟩
  | some r =>
    have hnames : ¬ ∃ link ∈ w.links,
        (unsafeArchivePath link.target || link.target.isEmpty) = true := by
      rw [← requestTargets_eq_none 0 ⟨∅, ∅⟩, h]
      simp
    rw [Option.bind_some]
    cases hm : w.links.mapM
        (sourceOf (w.members.foldl (addCandidate r.linkOffsets) r.targets)) with
    | none =>
      obtain ⟨link, hlink, hnone⟩ := exists_of_mapM_eq_none hm
      obtain ⟨m, hmem, rfl⟩ := List.mem_map.1 hlink
      rw [sourceOf_eq h hmem, Option.map_eq_none_iff] at hnone
      exact ⟨⟨fun _ => .inl (.inr ⟨m, hmem, hnone⟩), fun _ => rfl⟩,
        fun _ hok => absurd hok (by simp)⟩
    | some sources =>
      have hsources : w.hardLinks.map (fun m => (w.source m).map (Placed.target r.linkOffsets)) =
          sources.map some := by
        rw [← mapM_eq_some.1 hm, links, List.map_map]
        exact List.map_congr_left fun m hm => (sourceOf_eq h hm).symm
      obtain ⟨hcycle, hanswer⟩ := linkSizes_of_sources h hsources _ rfl
      rw [Option.bind_some, Option.map_eq_none_iff]
      refine ⟨⟨fun hnone => .inr (hcycle hnone), fun hbad => ?_⟩, fun answer hok => ?_⟩
      · cases hsize : sizeLinks sources w.links 0 _ with
        | none => rfl
        | some s =>
          exfalso
          rcases hbad with (hbad | ⟨m, hmem, hnone⟩) | ⟨m, hmem, hloop⟩
          · exact hnames hbad
          · obtain ⟨i, hi⟩ := List.mem_iff_getElem?.1 hmem
            obtain ⟨d, hd, -⟩ := source_of_sources hsources hi
            exact absurd (hnone.symm.trans hd) (by simp)
          · exact (hanswer s hsize).not_runsIntoCycle hmem hloop
      · obtain ⟨s, hs, rfl⟩ := Option.map_eq_some_iff.1 hok
        exact hanswer s hs

/-- The second walk fails exactly when a target of a hard link is unsafe, empty or absent or its
chain runs into a cycle; otherwise every entry gets the size of the file at the end of its chain,
and the sum of the links' sizes saturates. -/
theorem sizes_spec (w : TarWalk) :
    (w.sizes = .error hardLinkError ↔
        ∃ m ∈ w.hardLinks, w.BadTarget m ∨ RunsIntoCycle w.source m) ∧
      ∀ total entries, w.sizes = .ok (total, entries) → w.Answer total entries := by
  obtain ⟨hnone, hsome⟩ := w.linkSizes_spec
  simp only [and_or_left, exists_or]
  rw [← hnone, sizes, rows_eq, tarHardLinkSizes]
  cases h : linkSizes w.members w.links (w.listed.map (·.size)) with
  | none => exact ⟨⟨fun _ => rfl, fun _ => rfl⟩, fun _ _ hok => absurd hok (by simp)⟩
  | some answer =>
    refine ⟨⟨fun herr => absurd herr (by simp), fun hno => absurd hno (by simp)⟩, ?_⟩
    intro total entries hok
    obtain rfl := Except.ok.inj hok
    exact hsome _ h

/-! ## A sum beyond 64 bits -/

/-- A sparse file of the largest size with two hard links. -/
def largeWalk : TarWalk where
  members := [⟨⟨some ['f'], true, 2 ^ 64 - 1, none⟩, 0⟩,
    ⟨⟨some ['a'], true, 0, some ['f']⟩, 512⟩, ⟨⟨some ['b'], true, 0, some ['f']⟩, 1024⟩]
  ordered := by decide

/-- Both links have the size of the file, and the sum is not what is returned. -/
theorem largeWalk_saturates :
    largeWalk.sizes = .ok (2 ^ 64 - 1, [2 ^ 64 - 1, 2 ^ 64 - 1, 2 ^ 64 - 1]) ∧
      List.Forall₂ largeWalk.HasSize largeWalk.hardLinks [2 ^ 64 - 1, 2 ^ 64 - 1] ∧
      [2 ^ 64 - 1, 2 ^ 64 - 1].sum ≠ 2 ^ 64 - 1 := by
  have hlink (name : Text) (offset : Nat)
      (h : largeWalk.source ⟨⟨some name, true, 0, some ['f']⟩, offset⟩ =
        some ⟨⟨some ['f'], true, 2 ^ 64 - 1, none⟩, 0⟩) :
      largeWalk.HasSize ⟨⟨some name, true, 0, some ['f']⟩, offset⟩ (2 ^ 64 - 1) :=
    ⟨_, List.mem_cons_self, .step h (.stop (source_of_regular rfl)), rfl, rfl, rfl⟩
  have hhard : largeWalk.hardLinks =
      [⟨⟨some ['a'], true, 0, some ['f']⟩, 512⟩, ⟨⟨some ['b'], true, 0, some ['f']⟩, 1024⟩] := by
    decide
  refine ⟨by decide +kernel, ?_, by decide⟩
  rw [hhard]
  exact .cons (hlink _ _ (by decide +kernel)) (.cons (hlink _ _ (by decide +kernel)) .nil)

end TarWalk

end Sunpack.ArchiveState
