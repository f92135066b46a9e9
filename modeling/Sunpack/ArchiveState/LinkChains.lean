import Sunpack.ArchiveState.HardLinks

/-!
# The links of a manifest are followed to their ends

`sizeLinks` on any list of sources: it fails if a chain runs into a cycle, and otherwise gives every
link the size at the end of its chain. Sizes are shared between chains, and marks are never taken
back, so the invariant is that a marked link without a size lies on the chain that is being followed.
-/

namespace Sunpack.ArchiveState

open Lib

/-! ## The graph of the links -/

/-- The link that a link leads to. -/
def nextLink (sources : List Target) (i : Nat) : Option Nat := (sources[i]?).bind (·.link)

/-- The chain of a link ends, and at a source of this size. -/
def EndsWith (sources : List Target) (i size : Nat) : Prop :=
  ∃ e s, EndsAt (nextLink sources) i e ∧ sources[e]? = some s ∧ s.size = size

/-- Every link leads to a source or to a link. -/
def Closed (sources : List Target) : Prop :=
  ∀ i j, nextLink sources i = some j → j < sources.length

variable {sources : List Target}

theorem EndsWith.extend {i j size : Nat}
    (hij : Relation.ReflTransGen (Follows (nextLink sources)) i j)
    (h : EndsWith sources j size) : EndsWith sources i size := by
  obtain ⟨e, s, hend, hs, hsize⟩ := h
  exact ⟨e, s, hend.extend hij, hs, hsize⟩

theorem EndsWith.not_runsIntoCycle {i size : Nat} (h : EndsWith sources i size) :
    ¬ RunsIntoCycle (nextLink sources) i := by
  obtain ⟨e, s, hend, -⟩ := h
  exact hend.not_runsIntoCycle

/-! ## One chain -/

/-- The sizes that are known are right. -/
structure Sized (sources : List Target) (sizes : List (Option Nat)) : Prop where
  length : sizes.length = sources.length
  right : ∀ i size, sizes[i]? = some (some size) → EndsWith sources i size

/-- A marked link without a size is on the chain. -/
structure Marked (sources : List Target) (sizes : List (Option Nat)) (visiting : List Bool)
    (chain : List Nat) : Prop where
  length : visiting.length = sources.length
  pending : ∀ i, visiting[i]? = some true → sizes[i]? = some none → i ∈ chain

variable {sizes : List (Option Nat)} {visiting : List Bool} {chain : List Nat} {cursor : Nat}

theorem Marked.mark (h : Marked sources sizes visiting chain) :
    Marked sources sizes (visiting.set cursor true) (chain ++ [cursor]) where
  length := (List.length_set ..).trans h.length
  pending i hi hnone := by
    rw [List.mem_append, List.mem_singleton]
    by_cases hc : i = cursor
    · exact .inr hc
    · rw [List.getElem?_set_ne (Ne.symm hc)] at hi
      exact .inl (h.pending i hi hnone)

/-- What a followed chain is: the end of the chain, which everything on it shares. -/
structure Chain.Right (found : Chain) (sources : List Target) (sizes : List (Option Nat))
    (cursor : Nat) : Prop where
  ends : EndsWith sources cursor found.size
  shared : ∀ i ∈ found.chain, EndsWith sources i found.size
  marked : Marked sources sizes found.visiting found.chain

theorem followChain_sized {size : Nat} (h : sizes[cursor]? = some (some size)) :
    followChain sources sizes visiting chain cursor = some ⟨size, visiting, chain⟩ := by
  rw [followChain]
  simp only [h]

theorem followChain_marked (hsizes : ∀ size, sizes[cursor]? ≠ some (some size))
    (h : visiting[cursor]? ≠ some false) :
    followChain sources sizes visiting chain cursor = none := by
  rw [followChain]
  split
  · exact absurd ‹_› (hsizes _)
  · exact dif_neg h

theorem followChain_fresh (hsizes : ∀ size, sizes[cursor]? ≠ some (some size))
    (h : visiting[cursor]? = some false) {s : Target} (hs : sources[cursor]? = some s) :
    followChain sources sizes visiting chain cursor =
      match s.link with
      | some next => followChain sources sizes (visiting.set cursor true) (chain ++ [cursor]) next
      | none => some ⟨s.size, visiting.set cursor true, chain ++ [cursor]⟩ := by
  obtain ⟨offset, size, link⟩ := s
  rw [followChain]
  split
  · exact absurd ‹_› (hsizes _)
  · refine (dif_pos h).trans ?_
    rw [hs]
    cases link with
    | none => rfl
    | some next => rfl

theorem followChain_spec (hclosed : Closed sources) (hsized : Sized sources sizes)
    (visiting : List Bool) (chain : List Nat) (cursor : Nat)
    (hmarked : Marked sources sizes visiting chain) (hcursor : cursor < sources.length)
    (hchain : ∀ i ∈ chain, Relation.TransGen (Follows (nextLink sources)) i cursor) :
    (followChain sources sizes visiting chain cursor = none →
      RunsIntoCycle (nextLink sources) cursor) ∧
    ∀ found, followChain sources sizes visiting chain cursor = some found →
      found.Right sources sizes cursor := by
  induction visiting, chain, cursor using followChain.induct sizes with
  | case1 visiting chain cursor size hsize =>
    have hends := hsized.right cursor size hsize
    rw [followChain_sized hsize]
    refine ⟨fun h => absurd h (by simp), fun found h => ?_⟩
    obtain rfl := Option.some.inj h
    exact ⟨hends, fun i hi => hends.extend (hchain i hi).to_reflTransGen, hmarked⟩
  | case2 visiting chain cursor hfresh hunsized ih =>
    obtain ⟨s, hs⟩ : ∃ s, sources[cursor]? = some s := ⟨_, List.getElem?_eq_getElem hcursor⟩
    have hnext : nextLink sources cursor = s.link := by rw [nextLink, hs, Option.bind_some]
    rw [followChain_fresh hunsized hfresh hs]
    cases hlink : s.link with
    | none =>
      rw [hlink] at hnext
      have hends : EndsWith sources cursor s.size := ⟨cursor, s, .stop hnext, hs, rfl⟩
      refine ⟨fun h => absurd h (by simp), fun found h => ?_⟩
      obtain rfl := Option.some.inj h
      refine ⟨hends, fun i hi => ?_, hmarked.mark⟩
      rcases List.mem_append.1 hi with hi | hi
      · exact hends.extend (hchain i hi).to_reflTransGen
      · rw [List.mem_singleton.1 hi]
        exact hends
    | some next =>
      rw [hlink] at hnext
      have hstep : Relation.ReflTransGen (Follows (nextLink sources)) cursor next := .single hnext
      have hlonger : ∀ i ∈ chain ++ [cursor],
          Relation.TransGen (Follows (nextLink sources)) i next := by
        intro i hi
        rcases List.mem_append.1 hi with hi | hi
        · exact (hchain i hi).tail hnext
        · rw [List.mem_singleton.1 hi]
          exact .single hnext
      obtain ⟨hcycle, hfound⟩ := ih next hmarked.mark (hclosed cursor next hnext) hlonger
      refine ⟨fun h => (hcycle h).extend hstep, fun found h => ?_⟩
      have hright := hfound found h
      exact ⟨hright.ends.extend hstep, hright.shared, hright.marked⟩
  | case3 visiting chain cursor hfresh hunsized =>
    rw [followChain_marked hunsized hfresh]
    refine ⟨fun _ => ?_, fun found h => absurd h (by simp)⟩
    -- a marked link without a size is on the chain, so the chain comes back to it
    have hmark : visiting[cursor]? = some true := by
      obtain ⟨b, hb⟩ : ∃ b, visiting[cursor]? = some b :=
        ⟨_, List.getElem?_eq_getElem (hmarked.length ▸ hcursor)⟩
      cases b with
      | false => exact absurd hb hfresh
      | true => exact hb
    have hnone : sizes[cursor]? = some none := by
      obtain ⟨b, hb⟩ : ∃ b, sizes[cursor]? = some b :=
        ⟨_, List.getElem?_eq_getElem (hsized.length ▸ hcursor)⟩
      cases b with
      | some size => exact absurd hb (hunsized size)
      | none => exact hb
    exact ⟨cursor, .refl, hchain cursor (hmarked.pending cursor hmark hnone)⟩

/-! ## All chains -/

theorem getElem?_setSizes (size : Nat) (chain : List Nat) (sizes : List (Option Nat)) (i : Nat)
    (h : i < sizes.length) :
    (setSizes size chain sizes)[i]? = if i ∈ chain then some (some size) else sizes[i]? := by
  induction chain generalizing sizes with
  | nil => rfl
  | cons index chain ih =>
    rw [setSizes, List.foldl_cons]
    show (setSizes size chain (sizes.set index (some size)))[i]? = _
    rw [ih _ (by rwa [List.length_set])]
    by_cases hi : i ∈ chain
    · rw [if_pos hi, if_pos (List.mem_cons_of_mem _ hi)]
    · rw [if_neg hi]
      by_cases hc : i = index
      · rw [hc, if_pos List.mem_cons_self, List.getElem?_set_self (hc ▸ h)]
      · rw [List.getElem?_set_ne (Ne.symm hc), if_neg]
        exact fun hmem => (List.mem_cons.1 hmem).elim hc hi

theorem length_setSizes (size : Nat) (chain : List Nat) (sizes : List (Option Nat)) :
    (setSizes size chain sizes).length = sizes.length := by
  induction chain generalizing sizes with
  | nil => rfl
  | cons index chain ih =>
    rw [setSizes, List.foldl_cons]
    exact (ih _).trans (List.length_set ..)

variable {found : Chain}

theorem Sized.setSizes (hsized : Sized sources sizes) (h : found.Right sources sizes cursor) :
    Sized sources (setSizes found.size found.chain sizes) where
  length := (length_setSizes ..).trans hsized.length
  right i size hi := by
    have hlt := (List.getElem?_eq_some_iff.1 hi).1
    rw [length_setSizes] at hlt
    rw [getElem?_setSizes _ _ _ _ hlt] at hi
    split_ifs at hi with hmem
    · rw [← Option.some.inj (Option.some.inj hi)]
      exact h.shared i hmem
    · exact hsized.right i size hi

/-- After a chain every marked link has a size. -/
theorem Marked.setSizes (h : found.Right sources sizes cursor) :
    Marked sources (setSizes found.size found.chain sizes) found.visiting [] where
  length := h.marked.length
  pending i hi hnone := by
    have hlt := (List.getElem?_eq_some_iff.1 hnone).1
    rw [length_setSizes] at hlt
    rw [getElem?_setSizes _ _ _ _ hlt] at hnone
    split_ifs at hnone with hmem
    · exact absurd hnone (by simp)
    · exact absurd (h.marked.pending i hi hnone) hmem

/-- The entries after their links got their sizes. -/
def setEntries (entries : List Nat) (links : List TarHardLink) (found : List Nat) : List Nat :=
  (links.zip found).foldl (fun entries p => setEntry entries p.1 p.2) entries

theorem sizeLinks_spec (hclosed : Closed sources) (links : List TarHardLink) (start : Nat)
    (s : Sizing) (hbound : start + links.length ≤ sources.length)
    (hsized : Sized sources s.sizes) (hmarked : Marked sources s.sizes s.visiting []) :
    (sizeLinks sources links start s = none →
      ∃ i, start ≤ i ∧ i < start + links.length ∧ RunsIntoCycle (nextLink sources) i) ∧
    ∀ s', sizeLinks sources links start s = some s' →
      ∃ found : List Nat,
        List.Forall₂ (EndsWith sources) (List.range' start links.length) found ∧
        s'.total = found.foldl sat64 s.total ∧ s'.entries = setEntries s.entries links found := by
  induction links generalizing start s with
  | nil =>
    refine ⟨fun h => absurd h (by simp [sizeLinks]), fun s' h => ?_⟩
    obtain rfl := Option.some.inj h
    exact ⟨[], .nil, rfl, rfl⟩
  | cons link links ih =>
    rw [List.length_cons] at hbound
    obtain ⟨hcycle, hright⟩ := followChain_spec hclosed hsized s.visiting [] start hmarked
      (by omega) (by simp)
    rw [sizeLinks]
    cases hfound : followChain sources s.sizes s.visiting [] start with
    | none =>
      refine ⟨fun _ => ⟨start, le_rfl, ?_, hcycle hfound⟩, fun s' h => absurd h (by simp)⟩
      rw [List.length_cons]
      omega
    | some found =>
      have hfollowed := hright found hfound
      obtain ⟨hnone, hsome⟩ := ih (start + 1)
        ⟨setSizes found.size found.chain s.sizes, found.visiting, sat64 s.total found.size,
          setEntry s.entries link found.size⟩
        (by omega) (hsized.setSizes hfollowed) (Marked.setSizes hfollowed)
      rw [Option.bind_some]
      refine ⟨fun h => ?_, fun s' h => ?_⟩
      · obtain ⟨i, hle, hlt, hi⟩ := hnone h
        refine ⟨i, by omega, ?_, hi⟩
        rw [List.length_cons]
        omega
      · obtain ⟨rest, hends, htotal, hentries⟩ := hsome s' h
        refine ⟨found.size :: rest, ?_, htotal, hentries⟩
        rw [List.length_cons, List.range'_succ]
        exact .cons hfollowed.ends hends

end Sunpack.ArchiveState
