import Sunpack.Reservation.Registry
import Sunpack.Lib.Machine

/-!
# Overlapping reservations

Calls of `reserve` and `release` in any order, on a disk that may change between them. `live` is the
history: the reservations that were returned and not released, with the input each was made for.

A request that conflicts with a reservation above it is renumbered, and its new place is not compared
with the reservations above that. Where nothing foreign is there (`ClearRebase`), a reservation inside
another one is always recursive work of its owner.
-/

namespace Sunpack.Reservation

open Lib

structure Holding where
  key : Key
  owner : Owner
  input : Option Key

/-- What may be said of a reservation inside another one. -/
def Inside (outer inner : Holding) : Prop :=
  outer.key <+: inner.key →
    outer.owner = inner.owner ∧ ∃ input, inner.input = some input ∧ outer.key <+: input

structure World where
  registry : Registry := {}
  live : List Holding := []

/-- Any two live reservations are apart, or nested by recursive work of one owner. -/
def World.Apart (w : World) : Prop := w.live.Pairwise fun x y => Inside x y ∧ Inside y x

inductive Action
  | reserve (fs : FileSystem) (fuel : Nat) (q : Request)
  /-- The keys of the owner come in some order. -/
  | release (owner : Owner) (order : List Key)

variable (naming : Naming)

def step (w : World) : Action → Option World
  | .reserve fs fuel q =>
    match w.registry.reserve naming fs fuel q with
    | .error _ => none
    | .ok (registry, .error _) => some { w with registry := registry }
    | .ok (registry, .ok x) =>
      some { registry := registry, live := w.live ++ [⟨x.key, q.owner, q.inputKey fs⟩] }
  | .release owner order =>
    if order.Perm (w.registry.keysOf owner) then
      match w.registry.release owner order with
      | .error _ => none
      | .ok registry =>
        some { registry := registry, live := w.live.filter fun x => x.owner ≠ owner }
    else none

def machine : Machine World Action where
  init := {}
  step := step naming

/-- The condition under which reservations stay apart. -/
def Guarded (w : World) : Action → Prop
  | .reserve fs _ q => w.registry.ClearRebase naming fs q
  | .release _ _ => True

/-! ## The registry and the history -/

structure World.Consistent (w : World) : Prop where
  agrees : w.registry.reserved.Agrees
  observed : w.registry.allocator.Observed
  stored : ∀ key owner, w.registry.reserved.get? key = some owner ↔
    ∃ x ∈ w.live, x.key = key ∧ x.owner = owner
  nodup : (w.live.map (·.key)).Nodup
  owned : ∀ owner, w.registry.keysOf owner =
    (w.live.filter fun x => x.owner = owner).map (·.key)

theorem consistent_init : World.Consistent {} where
  agrees := PathMap.agrees_empty
  observed := OutputPathAllocator.observed_empty
  stored key owner := by
    constructor
    · intro h
      exact absurd h (by simp [PathMap.get?])
    · rintro ⟨x, hx, _⟩
      exact absurd hx List.not_mem_nil
  nodup := List.nodup_nil
  owned _ := rfl

variable {naming} {w w' : World}

/-- Nothing is stored at a key with nothing under it. -/
theorem World.Consistent.not_mem_of_apart (h : w.Consistent) {key : Key}
    (hapart : w.registry.reserved.hasUnder key = false) : ∀ x ∈ w.live, ¬ key <+: x.key := by
  intro x hx hunder
  have hget := (h.stored x.key x.owner).2 ⟨x, hx, rfl, rfl⟩
  have htrue := h.agrees.hasUnder_iff.2 ⟨x.key, hunder, by rw [hget]; simp⟩
  rw [hapart] at htrue
  exact Bool.false_ne_true htrue

theorem World.Consistent.reserve (h : w.Consistent) {fs : FileSystem} {q : Request} {r : Registry}
    {x : Reserved} (hreserves : w.registry.Reserves fs q r x) :
    World.Consistent { registry := r, live := w.live ++ [⟨x.key, q.owner, q.inputKey fs⟩] } := by
  have hnew := h.not_mem_of_apart hreserves.apart
  refine ⟨?_, hreserves.observed, fun key owner => ?_, ?_, fun owner => ?_⟩
  · rw [hreserves.reserved]
    exact h.agrees.set hreserves.nonempty _
  · show r.reserved.get? key = some owner ↔ _
    rw [hreserves.reserved, PathMap.get?_set]
    simp only [List.mem_append, List.mem_singleton, or_and_right, exists_or, exists_eq_left]
    split_ifs with heq
    · rw [Option.some.injEq]
      constructor
      · intro howner
        exact .inr ⟨heq.symm, howner⟩
      · rintro (⟨y, hy, hkey, -⟩ | ⟨-, howner⟩)
        · exact absurd (by rw [hkey, heq]) (hnew y hy)
        · exact howner
    · rw [h.stored]
      constructor
      · exact .inl
      · rintro (hy | ⟨hkey, -⟩)
        · exact hy
        · exact absurd hkey.symm heq
  · rw [List.map_append]
    refine List.Nodup.append h.nodup (List.nodup_singleton _) ?_
    intro key hkey hkey'
    obtain ⟨y, hy, rfl⟩ := List.mem_map.1 hkey
    rw [List.map_singleton, List.mem_singleton] at hkey'
    exact hnew y hy (by rw [hkey'])
  · show (r.ownerPaths.get? owner).getD [] = _
    rw [hreserves.ownerPaths, Dict.get?_set, List.filter_append, List.map_append, ← h.owned owner]
    have hfresh : x.key ∉ w.registry.keysOf q.owner := by
      rw [h.owned]
      intro hmem
      obtain ⟨y, hy, hkey⟩ := List.mem_map.1 hmem
      exact hnew y (List.mem_of_mem_filter hy) (by rw [hkey])
    split_ifs with heq
    · subst heq
      simp [addKey, hfresh]
    · have hother : ¬ q.owner = owner := fun h => heq h.symm
      simp [Registry.keysOf, hother]

theorem World.Consistent.release (h : w.Consistent) {owner : Owner} {order : List Key}
    (hperm : order.Perm (w.registry.keysOf owner)) :
    ∃ r, w.registry.release owner order = .ok r ∧
      (∀ key, r.reserved.get? key =
        if w.registry.reserved.get? key = some owner then none
        else w.registry.reserved.get? key) ∧
      World.Consistent { registry := r, live := w.live.filter fun x => x.owner ≠ owner } := by
  have hmem (key : Key) : key ∈ order ↔ w.registry.reserved.get? key = some owner := by
    rw [hperm.mem_iff, h.owned, h.stored, List.mem_map]
    refine exists_congr fun x => ?_
    rw [List.mem_filter, decide_eq_true_eq, and_assoc, and_comm (b := x.key = key)]
  have hnodup : order.Nodup := by
    rw [hperm.nodup_iff, h.owned]
    exact h.nodup.sublist (List.filter_sublist.map _)
  obtain ⟨r, hr, hagrees, hobserved, howners, hgets⟩ := Registry.releaseKeys_spec
    (r := { w.registry with ownerPaths := w.registry.ownerPaths.erase owner }) h.agrees h.observed
    hnodup fun key hkey => by
      rw [(hmem key).1 hkey]
      exact Option.some_ne_none _
  have hget (key : Key) : r.reserved.get? key =
      if w.registry.reserved.get? key = some owner then none
      else w.registry.reserved.get? key := by
    rw [hgets]
    exact if_congr (hmem key) rfl rfl
  refine ⟨r, hr, hget, hagrees, hobserved, fun key owner' => ?_, ?_, fun owner' => ?_⟩
  · show r.reserved.get? key = some owner' ↔ _
    rw [hget]
    simp only [List.mem_filter, decide_eq_true_eq]
    constructor
    · intro heq
      split_ifs at heq with howner
      obtain ⟨x, hx, hkey, hx'⟩ := (h.stored key owner').1 heq
      refine ⟨x, ⟨hx, fun hsame => howner ?_⟩, hkey, hx'⟩
      exact (h.stored key owner).2 ⟨x, hx, hkey, hsame⟩
    · rintro ⟨x, ⟨hx, hne⟩, hkey, howner⟩
      have hstored := (h.stored key owner').2 ⟨x, hx, hkey, howner⟩
      rw [hstored, if_neg]
      intro hsame
      exact hne (howner.trans (Option.some.inj hsame))
  · exact h.nodup.sublist (List.filter_sublist.map _)
  · show (r.ownerPaths.get? owner').getD [] = _
    rw [howners, Dict.get?_erase, List.filter_filter]
    split_ifs with heq
    · have hnone : (w.live.filter fun x => decide (x.owner = owner') && decide (x.owner ≠ owner)) =
          [] := by
        simp [heq]
      rw [hnone]
      rfl
    · have hsame : (w.live.filter fun x => decide (x.owner = owner') && decide (x.owner ≠ owner)) =
          w.live.filter fun x => x.owner = owner' := by
        refine List.filter_congr fun x _ => ?_
        by_cases howner : x.owner = owner'
        · simp [howner, heq]
        · simp [howner]
      rw [hsame]
      exact h.owned owner'

theorem World.Apart.reserve (h : w.Consistent) (hapart : w.Apart) {fs : FileSystem} {q : Request}
    {r : Registry} {x : Reserved} (hreserves : w.registry.Reserves fs q r x)
    (habove : ∀ ancestor ∈ w.registry.reserved.ancestors x.key, ancestor.1 ≠ x.key →
      permitted (q.inputKey fs) q.owner ancestor = true) :
    World.Apart { registry := r, live := w.live ++ [⟨x.key, q.owner, q.inputKey fs⟩] } := by
  have hnew := h.not_mem_of_apart hreserves.apart
  refine List.pairwise_append.2 ⟨hapart, List.pairwise_singleton _ _, ?_⟩
  intro y hy z hz
  obtain rfl := List.mem_singleton.1 hz
  refine ⟨fun hpre => ?_, fun hpre => absurd hpre (hnew y hy)⟩
  have hne : y.key ≠ x.key := by
    intro heq
    exact hnew y hy (by rw [heq])
  have hget := (h.stored y.key y.owner).2 ⟨y, hy, rfl, rfl⟩
  have hpermitted := habove (y.key, y.owner) (h.agrees.mem_ancestors.2 ⟨hpre, hget⟩) hne
  obtain ⟨input, hinput, hunder⟩ := (Option.any_eq_true _ _).1 hpermitted
  simp only [Bool.and_eq_true, decide_eq_true_eq, List.isPrefixOf_iff_prefix] at hunder
  exact ⟨hunder.1, input, hinput, hunder.2⟩

/-! ## Runs -/

/-- A call of `reserve` changes nothing, or adds what it reserved. -/
theorem reserve_cases {fs : FileSystem} {fuel : Nat} {q : Request} (h : w.Consistent)
    (hstep : step naming w (.reserve fs fuel q) = some w') :
    w' = w ∨ ∃ r x, w' = ⟨r, w.live ++ [⟨x.key, q.owner, q.inputKey fs⟩]⟩ ∧
      w.registry.Reserves fs q r x ∧
        (w.registry.ClearRebase naming fs q → ∀ ancestor ∈ w.registry.reserved.ancestors x.key,
          ancestor.1 ≠ x.key → permitted (q.inputKey fs) q.owner ancestor = true) := by
  have hspec := @Registry.reserve_spec naming fs fuel w.registry q h.agrees h.observed
  rw [step] at hstep
  rcases hreserve : w.registry.reserve naming fs fuel q with e | ⟨r, e | x⟩
  all_goals rw [hreserve] at hspec hstep
  · exact absurd hstep (by simp)
  · obtain rfl : r = w.registry := hspec
    exact .inl (Option.some.inj hstep).symm
  · exact .inr ⟨r, x, (Option.some.inj hstep).symm, hspec⟩

theorem release_cases {owner : Owner} {order : List Key} (h : w.Consistent)
    (hstep : step naming w (.release owner order) = some w') :
    w'.Consistent ∧ w'.live = w.live.filter fun x => x.owner ≠ owner := by
  rw [step] at hstep
  split_ifs at hstep with hperm
  obtain ⟨r, hr, _, hconsistent⟩ := h.release hperm
  rw [hr] at hstep
  obtain rfl := Option.some.inj hstep
  exact ⟨hconsistent, rfl⟩

theorem step_consistent (a : Action) (h : w.Consistent) (hstep : step naming w a = some w') :
    w'.Consistent := by
  cases a with
  | reserve fs fuel q =>
    obtain rfl | ⟨r, x, rfl, hreserves, _⟩ := reserve_cases h hstep
    · exact h
    · exact h.reserve hreserves
  | release owner order => exact (release_cases h hstep).1

theorem step_apart (a : Action) (h : w.Consistent) (hapart : w.Apart) (hguard : Guarded naming w a)
    (hstep : step naming w a = some w') : w'.Apart := by
  cases a with
  | reserve fs fuel q =>
    obtain rfl | ⟨r, x, rfl, hreserves, habove⟩ := reserve_cases h hstep
    · exact hapart
    · exact World.Apart.reserve h hapart hreserves (habove hguard)
  | release owner order =>
    rw [World.Apart, (release_cases h hstep).2]
    exact hapart.filter _

theorem reachable_consistent (h : (machine naming).Reachable w) : w.Consistent :=
  h.invariant consistent_init fun s a t (hs : s.Consistent) hstep =>
    @step_consistent naming s t a hs hstep

/-- Under the condition live reservations are apart in every state. Without it, a call that raises
still changes nothing, a release frees what its owner holds and does not fail, and a new path is not
on the disk. -/
theorem reservations_safe (naming : Naming) :
    (∀ w, ((machine naming).restrict (Guarded naming)).Reachable w → w.Apart) ∧
    ∀ w, (machine naming).Reachable w →
      (∀ key owner, w.registry.reserved.get? key = some owner ↔
        ∃ x ∈ w.live, x.key = key ∧ x.owner = owner) ∧
      (∀ fs fuel q,
        match w.registry.reserve naming fs fuel q with
        | .error e => e = .unfinished
        | .ok (r, .error _) => r = w.registry
        | .ok (_, .ok x) => q.reuseExisting = false → fs.exists? x.path = false) ∧
      ∀ owner order, order.Perm (w.registry.keysOf owner) →
        ∃ r, w.registry.release owner order = .ok r ∧
          ∀ key, r.reserved.get? key =
            if w.registry.reserved.get? key = some owner then none
            else w.registry.reserved.get? key := by
  refine ⟨fun w h => ?_, fun w h => ?_⟩
  · have hboth : w.Consistent ∧ w.Apart := by
      refine h.invariant (P := fun s => s.Consistent ∧ s.Apart)
        ⟨consistent_init, List.Pairwise.nil⟩ ?_
      rintro s a t ⟨hs, hapart⟩ hstep
      obtain ⟨hguard, hstep⟩ := Machine.restrict_step.1 hstep
      exact ⟨step_consistent a hs hstep, step_apart a hs hapart hguard hstep⟩
    exact hboth.2
  · have hw := reachable_consistent h
    refine ⟨hw.stored, fun fs fuel q => ?_, fun owner order hperm => ?_⟩
    · have hspec := @Registry.reserve_spec naming fs fuel w.registry q hw.agrees hw.observed
      rcases hreserve : w.registry.reserve naming fs fuel q with e | ⟨r, e | x⟩
      all_goals rw [hreserve] at hspec
      · exact hspec
      · exact hspec
      · exact hspec.1.fresh
    · obtain ⟨r, hr, hget, _⟩ := hw.release hperm
      exact ⟨r, hr, hget⟩

/-! ## A directory that is a link -/

/-- Names in lower case, and no files to number. -/
def asciiNaming : Naming where
  caseKey name := name.map Char.toLower
  digit c := if c.isDigit then some (c.toNat - '0'.toNat) else none
  splitext name := (name, [])

/-- A disk with a link from `r2\link` to `x`. -/
def linkedDisk : FileSystem where
  exists? p := p.parts ∈ [["r2".toList], ["x".toList], ["r2".toList, "link".toList]]
  resolve p := p.root.map Char.toLower ::
    match p.parts.map (·.map Char.toLower) with
    | first :: second :: rest =>
      if first = "r2".toList ∧ second = "link".toList then "x".toList :: rest
      else first :: second :: rest
    | parts => parts
  resolve_ne _ := List.cons_ne_nil _ _

def drivePath (parts : List String) : Path := ⟨"C:".toList, parts.map String.toList⟩

/-- Two continued outputs, and a new one whose directory is a link from the first to the second. -/
def linkedRun : List Action :=
  [.reserve linkedDisk 2 ⟨drivePath ["r2"], "A".toList, [], true, none⟩,
   .reserve linkedDisk 2 ⟨drivePath ["x"], "C".toList, [], true, none⟩,
   .reserve linkedDisk 2 ⟨drivePath ["r2", "link", "out"], "B".toList, [], false, none⟩]

theorem linkedRun_live :
    ((machine asciiNaming).exec {} linkedRun).map (·.live.map fun x => (x.key, x.owner)) =
      some [(["c:".toList, "r2".toList], "A".toList), (["c:".toList, "x".toList], "C".toList),
        (["c:".toList, "r2".toList, "link(1)".toList, "out".toList], "B".toList)] := by
  decide

/-- The new output of `B` is inside the one of `A`. -/
theorem linkedRun_overlaps : ¬ ∀ w, (machine asciiNaming).Reachable w → w.Apart := by
  intro hall
  obtain ⟨w, hexec, hlive⟩ := Option.map_eq_some_iff.1 linkedRun_live
  have hapart := hall w (Machine.Reachable.of_exec hexec)
  have howners : (w.live.map fun x => (x.key, x.owner)).Pairwise
      fun x y => x.1 <+: y.1 → x.2 = y.2 :=
    List.pairwise_map.2 (hapart.imp fun h hpre => (h.1 hpre).1)
  rw [hlive] at howners
  revert howners
  decide

end Sunpack.Reservation
