import Mathlib.Algebra.BigOperators.Group.List.Basic
import Mathlib.Data.UInt
import Sunpack.ExtractCallback.HardLinks

/-!
# What the finalization makes of the hard links

The rule, on the items of an extraction: a hard link stands for the latest item of its target's name
before it, or else for the first one. `finalizeHardLinks` is compared with it. A chain is resolved
from its end, so the invariant is about the links that are resolved: a link whose source is a link
that is not resolved yet is on a cycle.
-/

namespace Sunpack.ExtractCallback

open Lib OutputPaths

/-- Every hard link is the current item of its call, and every call has an item of its own. -/
structure Extraction where
  callback : Callback
  hardLinks : List HardLink
  ordered : hardLinks.Pairwise fun a b => a.trace < b.trace
  inside : ∀ link ∈ hardLinks, link.trace < callback.items.length

/-! ## The rule -/

def Item.isNamed (rooted : WString → WString) (name : WString) (item : Item) : Bool :=
  !item.isDir && archivePathKey rooted item.path == name

/-- The places of the items with a name. -/
def placesFrom (rooted : WString → WString) (name : WString) (items : List Item) (i : Nat) :
    List Nat :=
  ((items.zipIdx i).filter fun p => p.1.isNamed rooted name).map (·.2)

namespace Extraction

variable (env : Env) (x : Extraction)

def items : List Item := x.callback.items

def linkAt (t : Nat) : Option HardLink := x.hardLinks.find? (·.trace == t)

/-- The item that a hard link stands for. -/
def source (t : Nat) : Option Nat :=
  (x.linkAt t).bind fun link =>
    latestOrFirst (· < t) (placesFrom env.rooted link.target x.items 0)

/-- The link at an item can be made to a file. -/
structure Passes (t : Nat) (file : Item) : Prop where
  item : ∃ item, x.items[t]? = some item ∧ item.failed = false ∧
    item.fits file.bytesWritten = true ∧ (env.attempt t item).kind = .succeeded

/-- Following the sources from an item ends at a good file, and every link on the way can be made. -/
structure Reaches (t : Nat) (file : Item) : Prop where
  ends : ∃ e, EndsAt (x.source env) t e ∧ x.linkAt e = none ∧ x.items[e]? = some file
  good : file.done = true ∧ file.failed = false ∧ file.crcVerified = true
  passes : ∀ u, Relation.ReflTransGen (Follows (x.source env)) t u → x.linkAt u ≠ none →
    x.Passes env u file

variable {env x}

/-! ### Steps of the rule -/

theorem source_of_notLink {t : Nat} (h : x.linkAt t = none) : x.source env t = none := by
  rw [source, h, Option.bind_none]

theorem Reaches.unique {t : Nat} {file file' : Item} (h : x.Reaches env t file)
    (h' : x.Reaches env t file') : file = file' := by
  obtain ⟨e, hend, -, he⟩ := h.ends
  obtain ⟨e', hend', -, he'⟩ := h'.ends
  obtain rfl := hend.unique hend'
  exact Option.some.inj (he.symm.trans he')

theorem reaches_notLink {t : Nat} (h : x.linkAt t = none) (file : Item) :
    x.Reaches env t file ↔ x.items[t]? = some file ∧
      file.done = true ∧ file.failed = false ∧ file.crcVerified = true := by
  have hnone : x.source env t = none := source_of_notLink h
  constructor
  · intro hr
    obtain ⟨e, hend, -, he⟩ := hr.ends
    obtain rfl := hend.unique (.stop hnone)
    exact ⟨he, hr.good⟩
  · rintro ⟨hitem, hgood⟩
    refine ⟨⟨t, .stop hnone, h, hitem⟩, hgood, fun u hu hlink => ?_⟩
    rcases Relation.ReflTransGen.cases_head hu with rfl | ⟨v, hv, -⟩
    · exact absurd h hlink
    · exact absurd (hnone.symm.trans hv) (by simp)

theorem reaches_link {t : Nat} (h : x.linkAt t ≠ none) (file : Item) :
    x.Reaches env t file ↔
      (∃ u, x.source env t = some u ∧ x.Reaches env u file) ∧ x.Passes env t file := by
  constructor
  · intro hr
    obtain ⟨e, hend, hlink, he⟩ := hr.ends
    refine ⟨?_, hr.passes t .refl h⟩
    cases hend with
    | stop _ => exact absurd hlink h
    | step hu hend =>
      refine ⟨_, hu, ⟨e, hend, hlink, he⟩, hr.good, fun v hv hlink => ?_⟩
      exact hr.passes v (.head hu hv) hlink
  · rintro ⟨⟨u, hu, hr⟩, hpass⟩
    obtain ⟨e, hend, hlink, he⟩ := hr.ends
    refine ⟨⟨e, .step hu hend, hlink, he⟩, hr.good, fun v hv hlink => ?_⟩
    rcases Relation.ReflTransGen.cases_head hv with rfl | ⟨w, hw, hv⟩
    · exact hpass
    · obtain rfl := Option.some.inj (Eq.trans (Eq.symm hu) hw)
      exact hr.passes v hv hlink

/-! ### Links and their indices -/

theorem traces_nodup (x : Extraction) : (x.hardLinks.map (·.trace)).Nodup := by
  rw [List.Nodup, List.pairwise_map]
  exact x.ordered.imp Nat.ne_of_lt

theorem linkAt_of_getElem? {i : Nat} {link : HardLink} (h : x.hardLinks[i]? = some link) :
    x.linkAt link.trace = some link := by
  cases hfind : x.linkAt link.trace with
  | none =>
    have := List.find?_eq_none.1 hfind link (List.mem_of_getElem? h)
    exact absurd (beq_self_eq_true link.trace) this
  | some other =>
    have htrace : other.trace = link.trace := by
      simpa using List.find?_some hfind
    rw [List.inj_on_of_nodup_map x.traces_nodup (List.mem_of_find?_eq_some hfind)
      (List.mem_of_getElem? h) htrace]

theorem trace_of_linkAt {t : Nat} {link : HardLink} (h : x.linkAt t = some link) :
    link.trace = t := by
  simpa using List.find?_some h

theorem exists_index {t : Nat} {link : HardLink} (h : x.linkAt t = some link) :
    ∃ i : Nat, x.hardLinks[i]? = some link :=
  List.mem_iff_getElem?.1 (List.mem_of_find?_eq_some h)

theorem index_unique {i j : Nat} {link link' : HardLink} (h : x.hardLinks[i]? = some link)
    (h' : x.hardLinks[j]? = some link') (ht : link.trace = link'.trace) : i = j := by
  obtain ⟨hi, -⟩ := List.getElem?_eq_some_iff.1 h
  have hmap {k : Nat} {l : HardLink} (hk : x.hardLinks[k]? = some l) :
      (x.hardLinks.map (·.trace))[k]? = some l.trace := by
    rw [List.getElem?_map, hk, Option.map_some]
  refine (List.getElem?_inj (by rwa [List.length_map]) x.traces_nodup).1 (Eq.trans (hmap h) ?_)
  rw [hmap h', ht]

end Extraction

/-! ## The names and the sources -/

section requests

variable {rooted : WString → WString}

theorem targets_requestTargets (links : List HardLink) (index : Nat) (r : Requests) :
    (requestTargets links index r).targets =
      (links.map (·.target)).foldl (fun d k => d.orDefault k) r.targets := by
  induction links generalizing index r with
  | nil => rfl
  | cons link links ih => exact ih (index + 1) (r.add index link)

theorem links_requestTargets {links : List HardLink} (hnodup : (links.map (·.trace)).Nodup)
    (index : Nat) (r : Requests) (hnew : ∀ link ∈ links, r.links.get? link.trace = none) :
    (requestTargets links index r).links =
      Dict.indexFrom r.links (links.map (·.trace)) index := by
  induction links generalizing index r with
  | nil => rfl
  | cons link links ih =>
    rw [List.map_cons, List.nodup_cons] at hnodup
    have hadd : (r.add index link).links = r.links.set link.trace index := by
      simp only [Requests.add, hnew link List.mem_cons_self]
    show (requestTargets links (index + 1) (r.add index link)).links = _
    rw [ih hnodup.2, hadd, List.map_cons, Dict.indexFrom]
    intro other hother
    rw [hadd, Dict.get?_set_of_ne]
    · exact hnew other (List.mem_cons_of_mem _ hother)
    · intro heq
      exact hnodup.1 (heq ▸ List.mem_map_of_mem hother)

theorem get?_addCandidate (targets : Dict WString (List Nat)) (i : Nat) (item : Item)
    (name : WString) :
    (addCandidate rooted targets i item).get? name =
      (targets.get? name).map (· ++ if item.isNamed rooted name then [i] else []) := by
  have hsame (b : Bool) (h : b = false) : targets.get? name =
      (targets.get? name).map (· ++ if b = true then [i] else []) := by
    rw [h, if_neg (by simp)]
    simp
  unfold addCandidate Item.isNamed
  cases hdir : item.isDir with
  | true =>
    rw [if_pos rfl]
    exact hsame _ rfl
  | false =>
    rw [if_neg (by simp), Bool.not_false, Bool.true_and]
    by_cases hname : archivePathKey rooted item.path = name
    · subst hname
      cases hfound : targets.get? (archivePathKey rooted item.path) with
      | none => exact hfound
      | some found =>
        rw [beq_self_eq_true, if_pos rfl]
        exact Dict.get?_set_self _ _ _
    · have hfalse : (archivePathKey rooted item.path == name) = false := beq_eq_false_iff_ne.2 hname
      rw [hfalse, ← hsame false rfl]
      cases targets.get? (archivePathKey rooted item.path) with
      | none => rfl
      | some found => exact Dict.get?_set_of_ne _ (Ne.symm hname) _

theorem get?_candidatesFrom (items : List Item) (i : Nat) (targets : Dict WString (List Nat))
    (name : WString) :
    (candidatesFrom rooted items i targets).get? name =
      (targets.get? name).map (· ++ placesFrom rooted name items i) := by
  induction items generalizing i targets with
  | nil =>
    show targets.get? name = (targets.get? name).map (· ++ [])
    simp
  | cons item items ih =>
    have hplaces : placesFrom rooted name (item :: items) i =
        (if item.isNamed rooted name then [i] else []) ++ placesFrom rooted name items (i + 1) := by
      unfold placesFrom
      rw [List.zipIdx_cons, List.filter_cons]
      split_ifs <;> rfl
    show (candidatesFrom rooted items (i + 1) (addCandidate rooted targets i item)).get? name = _
    rw [ih, get?_addCandidate, Option.map_map, hplaces]
    congr 1
    funext found
    exact List.append_assoc ..

theorem placesFrom_sorted (name : WString) (items : List Item) (i : Nat) :
    (placesFrom rooted name items i).Pairwise (· < ·) := by
  have hall : ((items.zipIdx i).map (·.2)).Pairwise (· < ·) := by
    rw [List.zipIdx_map_snd]
    exact List.pairwise_lt_range'
  exact hall.sublist ((List.filter_sublist ..).map _)

theorem mem_placesFrom {name : WString} {items : List Item} {i : Nat} :
    i ∈ placesFrom rooted name items 0 ↔
      ∃ item, items[i]? = some item ∧ item.isNamed rooted name = true := by
  unfold placesFrom
  rw [List.mem_map]
  constructor
  · rintro ⟨⟨item, j⟩, hmem, rfl⟩
    obtain ⟨hmem, hnamed⟩ := List.mem_filter.1 hmem
    exact ⟨item, List.mk_mem_zipIdx_iff_getElem?.1 hmem, hnamed⟩
  · rintro ⟨item, hitem, hnamed⟩
    exact ⟨(item, i), List.mem_filter.2 ⟨List.mk_mem_zipIdx_iff_getElem?.2 hitem, hnamed⟩, rfl⟩

end requests

/-! ## The tables of the finalization -/

namespace Extraction

variable (env : Env) (x : Extraction)

def sources : List (Option Nat) := x.hardLinks.map fun link => x.source env link.trace

def links : Dict Nat Nat := Dict.indexFrom ∅ (x.hardLinks.map (·.trace)) 0

/-- The callback after `clearDone`. -/
def start : Callback := { x.callback with items := clearDone x.items x.hardLinks }

def finalize : Callback := finalizeHardLinks env x.callback x.hardLinks

variable {env x}

theorem sourceOf_eq {link : HardLink} (h : link ∈ x.hardLinks) :
    sourceOf (candidatesFrom env.rooted x.items 0 (requestTargets x.hardLinks 0 ⟨∅, ∅⟩).targets)
      link = x.source env link.trace := by
  obtain ⟨i, hi⟩ := List.mem_iff_getElem?.1 h
  have hasked : (requestTargets x.hardLinks 0 ⟨∅, ∅⟩).targets.get? link.target = some [] := by
    rw [targets_requestTargets, Dict.get?_foldl_orDefault, if_pos (List.mem_map_of_mem h)]
    rfl
  rw [sourceOf, get?_candidatesFrom, hasked, Option.map_some, Option.bind_some, List.nil_append,
    source, linkAt_of_getElem? hi, Option.bind_some, ← getElem?_partition]
  · show (if 0 < _ then _ else _) = _
    split_ifs with hpos
    · rfl
    · rw [Nat.eq_zero_of_not_pos hpos]
  · refine (placesFrom_sorted ..).imp fun hab hb => ?_
    rw [decide_eq_true_eq] at hb ⊢
    exact lt_trans hab hb

theorem finalize_eq : x.finalize env =
    resolveFrom env x.hardLinks x.links (x.sources env) (List.range x.hardLinks.length)
      (List.replicate x.hardLinks.length false) x.start := by
  have hsources : x.hardLinks.map (sourceOf (candidatesFrom env.rooted x.items 0
      (requestTargets x.hardLinks 0 ⟨∅, ∅⟩).targets)) = x.sources env :=
    List.map_congr_left fun link h => sourceOf_eq h
  have hlinks : (requestTargets x.hardLinks 0 ⟨∅, ∅⟩).links = x.links :=
    links_requestTargets x.traces_nodup 0 _ fun _ _ => rfl
  show resolveFrom env x.hardLinks _ _ _ _ x.start = _
  rw [hlinks]
  exact congrArg (fun sources => resolveFrom env x.hardLinks x.links sources _ _ x.start) hsources

theorem join_sources {i : Nat} {link : HardLink} (h : x.hardLinks[i]? = some link) :
    ((x.sources env)[i]?).join = x.source env link.trace := by
  rw [sources, List.getElem?_map, h, Option.map_some, Option.join_some]

/-- A link leads to a link when its source is the item of that link. -/
theorem nextLink_eq_some {i j : Nat} {link : HardLink} (h : x.hardLinks[i]? = some link) :
    nextLink x.links (x.sources env) i = some j ↔
      ∃ next, x.hardLinks[j]? = some next ∧ x.source env link.trace = some next.trace := by
  rw [nextLink, join_sources h, Option.bind_eq_some_iff]
  constructor
  · rintro ⟨t, ht, hj⟩
    rw [links, Dict.get?_indexFrom_iff x.traces_nodup, List.getElem?_map,
      Option.map_eq_some_iff] at hj
    obtain ⟨next, hnext, rfl⟩ := hj
    exact ⟨next, hnext, ht⟩
  · rintro ⟨next, hnext, ht⟩
    refine ⟨next.trace, ht, ?_⟩
    rw [links, Dict.get?_indexFrom_iff x.traces_nodup, List.getElem?_map, hnext, Option.map_some]

theorem source_lt {t u : Nat} (h : x.source env t = some u) : u < x.items.length := by
  obtain ⟨link, -, hu⟩ := Option.bind_eq_some_iff.1 h
  obtain ⟨item, hitem, -⟩ := mem_placesFrom.1 (mem_of_latestOrFirst hu)
  exact (List.getElem?_eq_some_iff.1 hitem).1

/-! ### Clearing -/

theorem getElem?_clearDone (items : List Item) (hardLinks : List HardLink) (t : Nat) :
    (clearDone items hardLinks)[t]? =
      if t ∈ hardLinks.map (·.trace) then items[t]?.map fun item => { item with done := false }
      else items[t]? := by
  induction hardLinks generalizing items with
  | nil => rfl
  | cons link hardLinks ih =>
    rw [clearDone, List.foldl_cons]
    show (clearDone _ hardLinks)[t]? = _
    rw [ih, List.map_cons]
    by_cases ht : link.trace = t
    · subst ht
      rw [List.getElem?_modify_eq, if_pos List.mem_cons_self]
      cases items[link.trace]? with
      | none => split_ifs <;> rfl
      | some item => split_ifs <;> rfl
    · rw [List.getElem?_modify_ne _ _ ht]
      by_cases hmem : t ∈ hardLinks.map (·.trace)
      · rw [if_pos hmem, if_pos (List.mem_cons_of_mem _ hmem)]
      · rw [if_neg hmem, if_neg]
        exact fun hcons => (List.mem_cons.1 hcons).elim (fun h => ht h.symm) hmem

theorem length_clearDone (items : List Item) (hardLinks : List HardLink) :
    (clearDone items hardLinks).length = items.length := by
  induction hardLinks generalizing items with
  | nil => rfl
  | cons link hardLinks ih =>
    rw [clearDone, List.foldl_cons]
    exact (ih _).trans (List.length_modify ..)

theorem getElem?_start (t : Nat) : x.start.items[t]? =
    if (x.linkAt t).isSome then x.items[t]?.map fun item => { item with done := false }
    else x.items[t]? := by
  have hmem : t ∈ x.hardLinks.map (·.trace) ↔ (x.linkAt t).isSome = true := by
    rw [linkAt, List.find?_isSome, List.mem_map]
    simp only [beq_iff_eq]
  show (clearDone x.items x.hardLinks)[t]? = _
  rw [getElem?_clearDone]
  simp only [hmem]

/-! ## One link -/

/-- What an item with a link becomes. -/
structure Settled (env : Env) (x : Extraction) (t : Nat) (item item' : Item) : Prop where
  made : ∀ file, x.Reaches env t file → item' = item.linkTo file
  lost : (¬ ∃ file, x.Reaches env t file) →
    ∃ error outputFailure, item' = item.fail error outputFailure

theorem Settled.done_iff {t : Nat} {item item' : Item} (h : Settled env x t item item') :
    item'.done = true ↔ ∃ file, x.Reaches env t file := by
  constructor
  · intro hdone
    by_contra hlost
    obtain ⟨error, outputFailure, rfl⟩ := h.lost hlost
    exact absurd hdone (by simp [Item.fail])
  · rintro ⟨file, hr⟩
    rw [h.made file hr]
    rfl

open Classical in
/-- The file that the chain of an item ends at. -/
noncomputable def reached (env : Env) (x : Extraction) (t : Nat) : Option Item :=
  if h : ∃ file, x.Reaches env t file then some h.choose else none

theorem reached_eq_some {t : Nat} {file : Item} :
    x.reached env t = some file ↔ x.Reaches env t file := by
  unfold reached
  split_ifs with h
  · rw [Option.some.injEq]
    constructor
    · rintro rfl
      exact h.choose_spec
    · exact h.choose_spec.unique
  · exact ⟨fun hno => absurd hno (by simp), fun hr => absurd ⟨file, hr⟩ h⟩

theorem reached_eq_none {t : Nat} : x.reached env t = none ↔ ¬ ∃ file, x.Reaches env t file := by
  constructor
  · rintro hnone ⟨file, hr⟩
    exact absurd (hnone.symm.trans (reached_eq_some.2 hr)) (by simp)
  · intro h
    unfold reached
    rw [dif_neg h]

/-- The files that the links of some indices end at. -/
noncomputable def files (env : Env) (x : Extraction) (indices : List Nat) : List Item :=
  indices.filterMap fun i => (x.hardLinks[i]?).bind fun link => x.reached env link.trace

/-- The state when the links of some indices are resolved. -/
structure Resolved (env : Env) (x : Extraction) (resolved : List Nat) (s : Callback) : Prop where
  nodup : resolved.Nodup
  inside : ∀ i ∈ resolved, i < x.hardLinks.length
  length : s.items.length = x.items.length
  others : ∀ t, x.linkAt t = none → s.items[t]? = x.items[t]?
  pending : ∀ i link item, i ∉ resolved → x.hardLinks[i]? = some link →
    x.items[link.trace]? = some item → s.items[link.trace]? = some { item with done := false }
  settled : ∀ i ∈ resolved, ∀ link item, x.hardLinks[i]? = some link →
    x.items[link.trace]? = some item →
      ∃ item', s.items[link.trace]? = some item' ∧ Settled env x link.trace item item'
  filesWritten : s.filesWritten =
    x.callback.filesWritten + UInt32.ofNat (x.files env resolved).length
  bytesWritten : s.bytesWritten =
    x.callback.bytesWritten + ((x.files env resolved).map (·.bytesWritten)).sum
  totalBytesWritten : s.totalBytesWritten =
    x.callback.totalBytesWritten + ((x.files env resolved).map (·.bytesWritten)).sum

theorem resolved_start (env : Env) (x : Extraction) : Resolved env x [] x.start where
  nodup := List.nodup_nil
  inside _ h := absurd h List.not_mem_nil
  length := length_clearDone ..
  others t ht := by
    rw [getElem?_start, ht]
    rfl
  pending i link item _ hi hitem := by
    rw [getElem?_start, linkAt_of_getElem? hi, hitem]
    rfl
  settled _ h := absurd h List.not_mem_nil
  filesWritten := (UInt32.add_zero _).symm
  bytesWritten := (UInt64.add_zero _).symm
  totalBytesWritten := (UInt64.add_zero _).symm

variable {resolved : List Nat} {s : Callback}

/-- An item that is no link, or a link that is resolved, is good when its chain reaches a file. -/
theorem Resolved.good (h : Resolved env x resolved s) {t : Nat} (ht : t < x.items.length)
    (hready : ∀ i link, x.hardLinks[i]? = some link → link.trace = t → i ∈ resolved) :
    ∃ item, s.items[t]? = some item ∧
      ((item.done = true ∧ item.failed = false ∧ item.crcVerified = true) ↔
        ∃ file, x.Reaches env t file) ∧
      ∀ file, x.Reaches env t file →
        item.bytesWritten = file.bytesWritten ∧ item.receipt = file.receipt := by
  obtain ⟨item, hitem⟩ : ∃ item, x.items[t]? = some item := ⟨_, List.getElem?_eq_getElem ht⟩
  cases hlink : x.linkAt t with
  | none =>
    refine ⟨item, (h.others t hlink).trans hitem, ?_, fun file hr => ?_⟩
    · simp only [reaches_notLink hlink, hitem, Option.some.injEq]
      constructor
      · exact fun hgood => ⟨item, rfl, hgood⟩
      · rintro ⟨file, rfl, hgood⟩
        exact hgood
    · obtain ⟨hfile, -⟩ := (reaches_notLink hlink file).1 hr
      obtain rfl := Option.some.inj (hitem.symm.trans hfile)
      exact ⟨rfl, rfl⟩
  | some link =>
    obtain ⟨i, hi⟩ := exists_index hlink
    obtain rfl := trace_of_linkAt hlink
    obtain ⟨item', hitem', hsettled⟩ := h.settled i (hready i link hi rfl) link item hi hitem
    refine ⟨item', hitem', ?_, fun file hr => ?_⟩
    · constructor
      · rintro ⟨hdone, -⟩
        exact hsettled.done_iff.1 hdone
      · rintro ⟨file, hr⟩
        rw [hsettled.made file hr]
        obtain ⟨it, hit, hfailed, -⟩ :=
          (hr.passes link.trace .refl (by rw [hlink]; simp)).item
        obtain rfl := Option.some.inj (hitem.symm.trans hit)
        exact ⟨rfl, hfailed, rfl⟩
    · rw [hsettled.made file hr]
      exact ⟨rfl, rfl⟩

/-- The new state of a link and its gain keep the invariant. -/
theorem Resolved.put (h : Resolved env x resolved s) {i : Nat} {link : HardLink} {item item' : Item}
    (hi : x.hardLinks[i]? = some link) (hnew : i ∉ resolved)
    (hitem : x.items[link.trace]? = some item) (hsettled : Settled env x link.trace item item')
    {s' : Callback} (hitems : s'.items = s.items.set link.trace item')
    (hfiles : s'.filesWritten =
      s.filesWritten + UInt32.ofNat (x.reached env link.trace).toList.length)
    (hbytes : s'.bytesWritten =
      s.bytesWritten + ((x.reached env link.trace).toList.map (·.bytesWritten)).sum)
    (htotal : s'.totalBytesWritten =
      s.totalBytesWritten + ((x.reached env link.trace).toList.map (·.bytesWritten)).sum) :
    Resolved env x (i :: resolved) s' := by
  have hfiled : x.files env (i :: resolved) =
      (x.reached env link.trace).toList ++ x.files env resolved := by
    unfold files
    rw [List.filterMap_cons, hi, Option.bind_some]
    cases x.reached env link.trace with
    | none => rfl
    | some file => rfl
  refine ⟨List.nodup_cons.2 ⟨hnew, h.nodup⟩, fun j hj => ?_, ?_, fun t ht => ?_, fun j other it hj hother hit => ?_, fun j hj other it hother hit => ?_,
    ?_, ?_, ?_⟩
  · rcases List.mem_cons.1 hj with rfl | hj
    · exact (List.getElem?_eq_some_iff.1 hi).1
    · exact h.inside j hj
  · rw [hitems, List.length_set, h.length]
  · rw [hitems, List.getElem?_set_ne, h.others t ht]
    rintro rfl
    exact absurd (ht.symm.trans (linkAt_of_getElem? hi)) (by simp)
  · rw [List.mem_cons, not_or] at hj
    rw [hitems, List.getElem?_set_ne, h.pending j other it hj.2 hother hit]
    exact fun ht => hj.1 (index_unique hother hi ht.symm)
  · rcases List.mem_cons.1 hj with rfl | hj
    · obtain rfl := Option.some.inj (hi.symm.trans hother)
      obtain rfl := Option.some.inj (hitem.symm.trans hit)
      refine ⟨item', ?_, hsettled⟩
      rw [hitems, List.getElem?_set_self]
      rw [h.length]
      exact (List.getElem?_eq_some_iff.1 hitem).1
    · rw [hitems, List.getElem?_set_ne]
      · exact h.settled j hj other it hother hit
      · intro ht
        exact hnew (index_unique hi hother ht ▸ hj)
  · rw [hfiles, h.filesWritten, hfiled, List.length_append, UInt32.ofNat_add,
      UInt32.add_assoc, UInt32.add_comm (.ofNat (x.files env resolved).length)]
  · rw [hbytes, h.bytesWritten, hfiled, List.map_append, List.sum_append, UInt64.add_assoc,
      UInt64.add_comm ((x.files env resolved).map _).sum]
  · rw [htotal, h.totalBytesWritten, hfiled, List.map_append, List.sum_append, UInt64.add_assoc,
      UInt64.add_comm ((x.files env resolved).map _).sum]

/-- The source of a link is there, and the link can be made to it. -/
def Makeable (env : Env) (s : Callback) (trace : Nat) (source : Option Nat) (item from' : Item) :
    Prop :=
  (source.bind fun source => s.items[source]?) = some from' ∧ item.accepts from' = true ∧
    (env.attempt trace item).kind = .succeeded

theorem resolve_makeable {trace : Nat} {source : Option Nat} {item from' : Item}
    (hitem : s.items[trace]? = some item) (h : Makeable env s trace source item from') :
    s.resolve env trace source = s.linkTo trace item from' := by
  obtain ⟨hsource, haccepts, hkind⟩ := h
  unfold Callback.resolve
  simp only [hitem, hsource, haccepts, hkind, if_true]

theorem resolve_not_makeable (env : Env) {trace : Nat} (source : Option Nat) {item : Item}
    (hitem : s.items[trace]? = some item) (h : ∀ from', ¬ Makeable env s trace source item from') :
    ∃ error outputFailure, s.resolve env trace source = s.fail trace item error outputFailure := by
  unfold Callback.resolve
  simp only [hitem]
  cases hsource : source.bind fun source => s.items[source]? with
  | none => exact ⟨_, _, rfl⟩
  | some from' =>
    dsimp only
    by_cases haccepts : item.accepts from' = true
    · rw [if_pos haccepts]
      by_cases hkind : (env.attempt trace item).kind = .succeeded
      · exact absurd ⟨hsource, haccepts, hkind⟩ (h from')
      · rw [if_neg hkind]
        exact ⟨_, _, rfl⟩
    · rw [if_neg haccepts]
      exact ⟨_, _, rfl⟩

theorem accepts_cleared (item from' : Item) :
    Item.accepts { item with done := false } from' = true ↔ item.failed = false ∧
      (from'.done = true ∧ from'.failed = false ∧ from'.crcVerified = true) ∧
        item.fits from'.bytesWritten = true := by
  unfold Item.accepts Item.fits
  simp only [Bool.and_eq_true, Bool.not_eq_true', and_assoc]

/-- A source that is a link which is still to be resolved is on a cycle, so its link is lost. -/
theorem Resolved.source_ready (h : Resolved env x resolved s) {i : Nat} {link : HardLink}
    (hi : x.hardLinks[i]? = some link)
    (hcycle : ∀ j, nextLink x.links (x.sources env) i = some j → j ∉ resolved →
      ¬ ∃ file, x.Reaches env link.trace file)
    {u : Nat} (hu : x.source env link.trace = some u) :
    (∃ from', s.items[u]? = some from' ∧
      ((from'.done = true ∧ from'.failed = false ∧ from'.crcVerified = true) ↔
        ∃ file, x.Reaches env u file) ∧
      ∀ file, x.Reaches env u file →
        from'.bytesWritten = file.bytesWritten ∧ from'.receipt = file.receipt) ∨
    ((∃ from', s.items[u]? = some from' ∧ from'.done = false) ∧
      ¬ ∃ file, x.Reaches env link.trace file) := by
  by_cases hready : ∀ j next, x.hardLinks[j]? = some next → next.trace = u → j ∈ resolved
  · exact .inl (h.good (source_lt hu) hready)
  · simp only [not_forall] at hready
    obtain ⟨j, next, hj, rfl, hnew⟩ := hready
    obtain ⟨it, hit⟩ : ∃ it, x.items[next.trace]? = some it :=
      ⟨_, List.getElem?_eq_getElem (source_lt hu)⟩
    refine .inr ⟨⟨_, h.pending j next it hnew hj hit, rfl⟩, ?_⟩
    exact hcycle j ((nextLink_eq_some hi).2 ⟨next, hj, hu⟩) hnew

theorem Resolved.reaches_of_makeable (h : Resolved env x resolved s) {i : Nat} {link : HardLink}
    {item from' : Item} (hi : x.hardLinks[i]? = some link) (hitem : x.items[link.trace]? = some item)
    (hcycle : ∀ j, nextLink x.links (x.sources env) i = some j → j ∉ resolved →
      ¬ ∃ file, x.Reaches env link.trace file)
    (hm : Makeable env s link.trace (x.source env link.trace) { item with done := false } from') :
    ∃ file, x.Reaches env link.trace file := by
  obtain ⟨hsource, haccepts, hkind⟩ := hm
  obtain ⟨u, hu, hfrom⟩ := Option.bind_eq_some_iff.1 hsource
  obtain ⟨hfailed, hgood, hfits⟩ := (accepts_cleared item from').1 haccepts
  rcases h.source_ready hi hcycle hu with ⟨it, hit, hiff, hsame⟩ | ⟨⟨it, hit, hdone⟩, -⟩
  · obtain rfl := Option.some.inj (hit.symm.trans hfrom)
    obtain ⟨file, hr⟩ := hiff.1 hgood
    rw [(hsame file hr).1] at hfits
    exact ⟨file, (reaches_link (by rw [linkAt_of_getElem? hi]; simp) file).2
      ⟨⟨u, hu, hr⟩, ⟨item, hitem, hfailed, hfits, hkind⟩⟩⟩
  · obtain rfl := Option.some.inj (hit.symm.trans hfrom)
    exact absurd (hdone.symm.trans hgood.1) (by simp)

theorem Resolved.makeable_of_reaches (h : Resolved env x resolved s) {i : Nat} {link : HardLink}
    {item file : Item} (hi : x.hardLinks[i]? = some link) (hitem : x.items[link.trace]? = some item)
    (hcycle : ∀ j, nextLink x.links (x.sources env) i = some j → j ∉ resolved →
      ¬ ∃ file, x.Reaches env link.trace file)
    (hr : x.Reaches env link.trace file) :
    ∃ from', Makeable env s link.trace (x.source env link.trace) { item with done := false } from' ∧
      from'.bytesWritten = file.bytesWritten ∧ from'.receipt = file.receipt := by
  obtain ⟨⟨u, hu, hrest⟩, ⟨it, hit, hfailed, hfits, hkind⟩⟩ :=
    (reaches_link (by rw [linkAt_of_getElem? hi]; simp) file).1 hr
  obtain rfl := Option.some.inj (hitem.symm.trans hit)
  rcases h.source_ready hi hcycle hu with ⟨from', hfrom, hiff, hsame⟩ | ⟨-, hlost⟩
  · obtain ⟨hbytes, hreceipt⟩ := hsame file hrest
    refine ⟨from', ⟨?_, ?_, hkind⟩, hbytes, hreceipt⟩
    · rw [hu, Option.bind_some, hfrom]
    · exact (accepts_cleared item from').2 ⟨hfailed, hiff.2 ⟨file, hrest⟩, hbytes ▸ hfits⟩
  · exact absurd ⟨file, hr⟩ hlost

theorem Resolved.resolve (h : Resolved env x resolved s) {i : Nat} {link : HardLink}
    (hi : x.hardLinks[i]? = some link) (hnew : i ∉ resolved)
    (hcycle : ∀ j, nextLink x.links (x.sources env) i = some j → j ∉ resolved →
      ¬ ∃ file, x.Reaches env link.trace file) :
    Resolved env x (i :: resolved) (s.resolve env link.trace (x.source env link.trace)) := by
  obtain ⟨item, hitem⟩ : ∃ item, x.items[link.trace]? = some item :=
    ⟨_, List.getElem?_eq_getElem (x.inside link (List.mem_of_getElem? hi))⟩
  have hpending := h.pending i link item hnew hi hitem
  by_cases hreach : ∃ file, x.Reaches env link.trace file
  · obtain ⟨file, hr⟩ := hreach
    obtain ⟨from', hmake, hbytes, hreceipt⟩ := h.makeable_of_reaches hi hitem hcycle hr
    have hfile := reached_eq_some.2 hr
    have hlinked : Item.linkTo { item with done := false } from' = item.linkTo file := by
      unfold Item.linkTo
      rw [hbytes, hreceipt]
    rw [resolve_makeable hpending hmake]
    refine h.put hi hnew hitem ⟨fun file' hr' => ?_, fun hlost => absurd ⟨file, hr⟩ hlost⟩ rfl
      ?_ ?_ ?_
    · rw [hlinked, hr.unique hr']
    · rw [hfile]
      rfl
    · rw [hfile]
      show s.bytesWritten + from'.bytesWritten = s.bytesWritten + [file.bytesWritten].sum
      rw [hbytes, List.sum_singleton]
    · rw [hfile]
      show s.totalBytesWritten + from'.bytesWritten = s.totalBytesWritten + [file.bytesWritten].sum
      rw [hbytes, List.sum_singleton]
  · obtain ⟨error, outputFailure, hs'⟩ :=
      resolve_not_makeable env (x.source env link.trace) hpending
        fun from' hm => hreach (h.reaches_of_makeable hi hitem hcycle hm)
    have hnone := reached_eq_none.2 hreach
    rw [hs']
    refine h.put hi hnew hitem ⟨fun file hr => absurd ⟨file, hr⟩ hreach,
      fun _ => ⟨error, outputFailure, rfl⟩⟩ rfl ?_ ?_ ?_
    · rw [hnone]
      exact (UInt32.add_zero _).symm
    · rw [hnone]
      exact (UInt64.add_zero _).symm
    · rw [hnone]
      exact (UInt64.add_zero _).symm

theorem not_reaches_of_closed {t : Nat} (h : Relation.TransGen (Follows (x.source env)) t t) :
    ¬ ∃ file, x.Reaches env t file := by
  rintro ⟨file, hr⟩
  obtain ⟨e, hend, -⟩ := hr.ends
  exact hend.not_closed h

/-! ## Chains -/

variable {visited : List Bool} {cursor : Nat} {above : List Nat}

theorem collectChain_marked (h : visited[cursor]? ≠ some false) :
    collectChain x.links (x.sources env) visited cursor = ([], visited) := by
  rw [collectChain, dif_neg h]

theorem collectChain_stop (h : visited[cursor]? = some false)
    (hnext : nextLink x.links (x.sources env) cursor = none) :
    collectChain x.links (x.sources env) visited cursor = ([cursor], visited.set cursor true) := by
  rw [collectChain, dif_pos h]
  simp only [hnext]

theorem collectChain_next (h : visited[cursor]? = some false) {next : Nat}
    (hnext : nextLink x.links (x.sources env) cursor = some next) :
    collectChain x.links (x.sources env) visited cursor =
      (cursor :: (collectChain x.links (x.sources env) (visited.set cursor true) next).1,
        (collectChain x.links (x.sources env) (visited.set cursor true) next).2) := by
  rw [collectChain, dif_pos h]
  simp only [hnext]

theorem resolveChain_cons {link : HardLink} (h : x.hardLinks[cursor]? = some link)
    (rest : List Nat) :
    resolveChain env x.hardLinks (x.sources env) s (cursor :: rest) =
      (resolveChain env x.hardLinks (x.sources env) s rest).resolve env link.trace
        (x.source env link.trace) := by
  unfold resolveChain
  rw [List.foldr_cons, h]
  dsimp only
  rw [join_sources h]

/-- The marks are those of the links that are resolved and of those above. -/
def Marks (x : Extraction) (resolved above : List Nat) (visited : List Bool) : Prop :=
  visited.length = x.hardLinks.length ∧
    ∀ i, visited[i]? = some true ↔ i ∈ resolved ∨ i ∈ above

theorem Marks.mark (h : Marks x resolved above visited) (hcursor : visited[cursor]? = some false) :
    Marks x resolved (cursor :: above) (visited.set cursor true) := by
  refine ⟨by rw [List.length_set, h.1], fun i => ?_⟩
  by_cases hi : i = cursor
  · subst hi
    rw [List.getElem?_set_self (List.getElem?_eq_some_iff.1 hcursor).1]
    exact ⟨fun _ => .inr List.mem_cons_self, fun _ => rfl⟩
  · rw [List.getElem?_set_ne (Ne.symm hi), h.2, List.mem_cons]
    exact or_congr_right ⟨.inr, fun hor => hor.resolve_left hi⟩

/-- What is known of a chain: its links were not visited, and resolving it keeps the invariant. -/
structure Chained (env : Env) (x : Extraction) (resolved above : List Nat) (visited : List Bool)
    (s : Callback) (found : List Nat × List Bool) : Prop where
  fresh : ∀ i ∈ found.1, visited[i]? = some false
  marks : Marks x (found.1 ++ resolved) above found.2
  resolved : Resolved env x (found.1 ++ resolved)
    (resolveChain env x.hardLinks (x.sources env) s found.1)

/-- The links above lead to the first link. -/
def Above (env : Env) (x : Extraction) (above : List Nat) (cursor : Nat) : Prop :=
  ∀ i ∈ above, ∀ upper link, x.hardLinks[i]? = some upper → x.hardLinks[cursor]? = some link →
    Relation.TransGen (Follows (x.source env)) upper.trace link.trace

theorem Above.next (h : Above env x above cursor) {next : Nat}
    (hnext : nextLink x.links (x.sources env) cursor = some next) (hcursor : cursor < x.hardLinks.length) :
    Above env x (cursor :: above) next := by
  intro i hi upper link hupper hlink
  have hget := List.getElem?_eq_getElem hcursor
  obtain ⟨other, hother, hu⟩ := (nextLink_eq_some hget).1 hnext
  obtain rfl := Option.some.inj (hother.symm.trans hlink)
  rcases List.mem_cons.1 hi with rfl | hi
  · obtain rfl := Option.some.inj (hget.symm.trans hupper)
    exact .single hu
  · exact (h i hi upper _ hupper hget).tail hu

theorem collectChain_chained (visited : List Bool) (cursor : Nat) :
    ∀ above, Marks x resolved above visited → cursor < x.hardLinks.length →
      Above env x above cursor → Resolved env x resolved s →
      Chained env x resolved above visited s
          (collectChain x.links (x.sources env) visited cursor) ∧
        (collectChain x.links (x.sources env) visited cursor).2[cursor]? = some true := by
  induction visited, cursor using collectChain.induct x.links (x.sources env) with
  | case1 visited cursor hfresh hnext =>
    intro above hmarks hcursor habove h
    rw [collectChain_stop hfresh hnext]
    have hget := List.getElem?_eq_getElem hcursor
    have hnew : cursor ∉ resolved := by
      intro hmem
      exact absurd (hfresh.symm.trans ((hmarks.2 cursor).2 (.inl hmem))) (by simp)
    have hmarked := hmarks.mark hfresh
    refine ⟨⟨fun i hi => ?_, ⟨hmarked.1, fun i => ?_⟩, ?_⟩,
      (hmarked.2 cursor).2 (.inr List.mem_cons_self)⟩
    · rw [List.mem_singleton.1 hi]
      exact hfresh
    · rw [hmarked.2 i, List.mem_cons, List.singleton_append, List.mem_cons]
      tauto
    · rw [resolveChain_cons hget]
      exact h.resolve hget hnew fun j hj => absurd (hnext.symm.trans hj) (by simp)
  | case2 visited cursor hfresh next hnext ih =>
    intro above hmarks hcursor habove h
    rw [collectChain_next hfresh hnext]
    have hget := List.getElem?_eq_getElem hcursor
    obtain ⟨nextL, hnextL, hu⟩ := (nextLink_eq_some hget).1 hnext
    have hbelow := habove.next hnext hcursor
    obtain ⟨hrest, hseen⟩ := ih (cursor :: above) (hmarks.mark hfresh)
      (List.getElem?_eq_some_iff.1 hnextL).1 hbelow h
    have hnew : cursor ∉ (collectChain x.links (x.sources env) (visited.set cursor true) next).1 ++
        resolved := by
      intro hmem
      rcases List.mem_append.1 hmem with hmem | hmem
      · have := hrest.fresh cursor hmem
        rw [List.getElem?_set_self (List.getElem?_eq_some_iff.1 hfresh).1] at this
        exact absurd this (by simp)
      · exact absurd (hfresh.symm.trans ((hmarks.2 cursor).2 (.inl hmem))) (by simp)
    -- the next link is resolved by now, or it is above and the chain is a cycle
    have hcycle : ∀ j, nextLink x.links (x.sources env) cursor = some j →
        j ∉ (collectChain x.links (x.sources env) (visited.set cursor true) next).1 ++ resolved →
        ¬ ∃ file, x.Reaches env x.hardLinks[cursor].trace file := by
      intro j hj hout
      obtain rfl := Option.some.inj (hnext.symm.trans hj)
      have hup := ((hrest.marks.2 next).1 hseen).resolve_left hout
      rintro ⟨file, hr⟩
      obtain ⟨⟨u, hu', hr⟩, -⟩ :=
        (reaches_link (by rw [linkAt_of_getElem? hget]; simp) file).1 hr
      obtain rfl := Option.some.inj (hu.symm.trans hu')
      exact not_reaches_of_closed (hbelow next hup _ _ hnextL hnextL) ⟨file, hr⟩
    refine ⟨⟨fun i hi => ?_, ⟨hrest.marks.1, fun i => ?_⟩, ?_⟩, ?_⟩
    · rcases List.mem_cons.1 hi with rfl | hi
      · exact hfresh
      · have hi' := hrest.fresh i hi
        by_cases hc : cursor = i
        · subst hc
          exact absurd (List.mem_append_left _ hi) hnew
        · rwa [List.getElem?_set_ne hc] at hi'
    · rw [hrest.marks.2 i, List.cons_append, List.mem_cons, List.mem_cons]
      tauto
    · rw [List.cons_append, resolveChain_cons hget]
      exact hrest.resolved.resolve hget hnew hcycle
    · exact (hrest.marks.2 cursor).2 (.inr List.mem_cons_self)
  | case3 visited cursor hmarked =>
    intro above hmarks hcursor habove h
    rw [collectChain_marked hmarked]
    have hlt : cursor < visited.length := hmarks.1.symm ▸ hcursor
    refine ⟨⟨fun i hi => absurd hi List.not_mem_nil, hmarks, h⟩, ?_⟩
    rw [List.getElem?_eq_getElem hlt] at hmarked ⊢
    cases hb : visited[cursor] with
    | true => rfl
    | false => exact absurd (congrArg some hb) hmarked

/-! ## All links -/

theorem resolveFrom_resolved {starts : List Nat} (hstarts : ∀ i ∈ starts, i < x.hardLinks.length)
    (hmarks : Marks x resolved [] visited) (h : Resolved env x resolved s) :
    ∃ all, Resolved env x all
        (resolveFrom env x.hardLinks x.links (x.sources env) starts visited s) ∧
      (∀ i ∈ starts, i ∈ all) ∧ ∀ i ∈ resolved, i ∈ all := by
  induction starts generalizing visited resolved s with
  | nil => exact ⟨resolved, h, fun i hi => absurd hi List.not_mem_nil, fun i hi => hi⟩
  | cons start starts ih =>
    obtain ⟨hchain, hseen⟩ := collectChain_chained visited start [] hmarks
      (hstarts start List.mem_cons_self) (fun i hi => absurd hi List.not_mem_nil) h
    obtain ⟨all, hall, hrest, hsub⟩ := ih (fun i hi => hstarts i (List.mem_cons_of_mem _ hi))
      hchain.marks hchain.resolved
    refine ⟨all, hall, fun i hi => ?_, fun i hi => hsub i (List.mem_append_right _ hi)⟩
    rcases List.mem_cons.1 hi with rfl | hi
    · exact hsub i (((hchain.marks.2 i).1 hseen).resolve_right List.not_mem_nil)
    · exact hrest i hi

/-- The items of the links, in the order of the links. -/
def linkItems (x : Extraction) (s : Callback) : List Item :=
  x.hardLinks.filterMap fun link => s.items[link.trace]?

/-- What the finalization does: it settles every link, and counts the links that are done. -/
structure Finalized (env : Env) (x : Extraction) (s : Callback) : Prop where
  length : s.items.length = x.items.length
  others : ∀ t, x.linkAt t = none → s.items[t]? = x.items[t]?
  links : ∀ link ∈ x.hardLinks, ∀ item, x.items[link.trace]? = some item →
    ∃ item', s.items[link.trace]? = some item' ∧
      (item'.done = true ↔ ∃ file, x.Reaches env link.trace file) ∧
      ∀ file, x.Reaches env link.trace file → item' = item.linkTo file
  filesWritten : s.filesWritten =
    x.callback.filesWritten + UInt32.ofNat ((x.linkItems s).filter (·.done)).length
  bytesWritten : s.bytesWritten =
    x.callback.bytesWritten + (((x.linkItems s).filter (·.done)).map (·.bytesWritten)).sum
  totalBytesWritten : s.totalBytesWritten =
    x.callback.totalBytesWritten + (((x.linkItems s).filter (·.done)).map (·.bytesWritten)).sum

theorem filterMap_range {α β : Type} (f : α → Option β) (l : List α) :
    ((List.range l.length).filterMap fun i => (l[i]?).bind f) = l.filterMap f := by
  induction l with
  | nil => rfl
  | cons a l ih =>
    rw [List.length_cons, List.range_succ_eq_map, List.filterMap_cons, List.filterMap_map,
      List.filterMap_cons, ← ih]
    rfl

/-- When every link is resolved, the files are those of the links that are done. -/
theorem Resolved.done_bytes {all : List Nat} (h : Resolved env x all s)
    (hall : ∀ i, i < x.hardLinks.length → i ∈ all) :
    (((x.linkItems s).filter (·.done)).map (·.bytesWritten)).Perm
      ((x.files env all).map (·.bytesWritten)) := by
  have hperm : all.Perm (List.range x.hardLinks.length) :=
    (List.perm_ext_iff_of_nodup h.nodup List.nodup_range).2 fun i =>
      ⟨fun hi => List.mem_range.2 (h.inside i hi), fun hi => hall i (List.mem_range.1 hi)⟩
  have hfiles : x.files env (List.range x.hardLinks.length) =
      x.hardLinks.filterMap fun link => x.reached env link.trace :=
    filterMap_range _ x.hardLinks
  refine List.Perm.trans (.of_eq ?_) ((hperm.filterMap _).map _).symm
  show _ = (x.files env _).map _
  rw [hfiles, linkItems, List.filter_filterMap, List.map_filterMap, List.map_filterMap]
  refine List.filterMap_congr fun link hlink => ?_
  obtain ⟨i, hi⟩ := List.mem_iff_getElem?.1 hlink
  obtain ⟨item, hitem⟩ : ∃ item, x.items[link.trace]? = some item :=
    ⟨_, List.getElem?_eq_getElem (x.inside link hlink)⟩
  obtain ⟨item', hitem', hsettled⟩ :=
    h.settled i (hall i (List.getElem?_eq_some_iff.1 hi).1) link item hi hitem
  rw [hitem']
  cases hreached : x.reached env link.trace with
  | none =>
    have hlost : item'.done = false := by
      rw [← Bool.not_eq_true, hsettled.done_iff]
      exact reached_eq_none.1 hreached
    rw [Option.filter_some, if_neg (by rw [hlost]; simp), Option.map_none]
  | some file =>
    rw [hsettled.made file (reached_eq_some.1 hreached)]
    rfl

/-- The finalization ends with every link settled. -/
theorem finalize_finalized (env : Env) (x : Extraction) : Finalized env x (x.finalize env) := by
  have hmarks : Marks x [] [] (List.replicate x.hardLinks.length false) :=
    ⟨List.length_replicate, fun i => by rw [List.getElem?_replicate]; split_ifs <;> simp⟩
  have hstart : ∀ i ∈ List.range x.hardLinks.length, i < x.hardLinks.length :=
    fun i hi => List.mem_range.1 hi
  obtain ⟨all, h, hstarts, -⟩ := resolveFrom_resolved hstart hmarks (resolved_start env x)
  rw [finalize_eq]
  have hall : ∀ i, i < x.hardLinks.length → i ∈ all := fun i hi => hstarts i (List.mem_range.2 hi)
  have hbytes := h.done_bytes hall
  refine ⟨h.length, h.others, fun link hlink item hitem => ?_, ?_, ?_, ?_⟩
  · obtain ⟨i, hi⟩ := List.mem_iff_getElem?.1 hlink
    obtain ⟨item', hitem', hsettled⟩ :=
      h.settled i (hall i (List.getElem?_eq_some_iff.1 hi).1) link item hi hitem
    exact ⟨item', hitem', hsettled.done_iff, hsettled.made⟩
  · have hlength := hbytes.length_eq
    rw [List.length_map, List.length_map] at hlength
    rw [h.filesWritten, hlength]
  · rw [h.bytesWritten, hbytes.sum_eq]
  · rw [h.totalBytesWritten, hbytes.sum_eq]

end Extraction

end Sunpack.ExtractCallback
