import Sunpack.Lib.Separated
import Sunpack.Lib.SortedMap
import Sunpack.PathKeys

/-!
# Path sets

`PathSet` of `watch_store.rs`: paths by their keys. A member stands for all paths under it; whether
one covers a path is found by walking up from the path, and what lies under a path is a range of the
ordered keys. The two agree as long as no member is the root of a volume, whose key alone ends with a
separator.
-/

namespace Sunpack.WatchStore

open Lib

/-- What the system contributes to keys: its case mapping, and the absolute form of a path (that of
the current directory for the empty path, the path itself if there is none). -/
structure WatchPaths where
  table : DowncaseTable
  absolute : Text → Text

def WatchPaths.pathKey (W : WatchPaths) (path : Text) : Text := W.table.pathKey (W.absolute path)

def isPathUnder (path root : Text) : Bool :=
  let root := trimEnd '\\' root
  decide (root.length < path.length) && root.isPrefixOf path && path[root.length]? == some '\\'

/-- The entries of a `BTreeMap` of the paths by their keys. -/
structure PathSet (W : WatchPaths) where
  entries : List (Text × Text) := []
  sorted : entries.Pairwise fun a b => a.1 < b.1 := by simp
  keyed : ∀ e ∈ entries, W.pathKey e.2 = e.1 := by simp

namespace PathSet

variable {W : WatchPaths}

/-! ## Operations -/

def iter (s : PathSet W) : List Text := s.entries.map Prod.snd

def containsKey (s : PathSet W) (key : Text) : Bool := (s.entries.lookup key).isSome

def contains (s : PathSet W) (path : Text) : Bool := s.containsKey (W.pathKey path)

/-- The walk of `covers`, for paths shorter than the bound. -/
def coversFrom (s : PathSet W) : Nat → Text → Bool
  | 0, _ => false
  | n + 1, ancestor =>
    s.containsKey ancestor ||
      match rsplitOnce '\\' ancestor with
      | none => false
      | some cut => s.coversFrom n cut.1

def covers (s : PathSet W) (path : Text) : Bool :=
  s.coversFrom ((W.pathKey path).length + 1) (W.pathKey path)

/-- The keys that `remove_under` removes: a range, and the key itself. -/
def keysUnder (s : PathSet W) (key : Text) : List Text :=
  let start := trimEnd '\\' key ++ ['\\']
  let keys := ((s.entries.dropWhile fun e => e.1 < start).takeWhile fun e =>
    start <+: e.1).map Prod.fst
  if s.containsKey key then keys ++ [key] else keys

/-- The set that is left, and the removed paths. -/
def removeUnder (s : PathSet W) (path : Text) : PathSet W × List Text :=
  let result := removeKeys (s.keysUnder (W.pathKey path)) s.entries
  ({ entries := result.1
     sorted := by
       rw [(removeKeys_gives _ s.sorted).1]
       exact s.sorted.filter _
     keyed := by
       intro e he
       rw [(removeKeys_gives _ s.sorted).1] at he
       exact s.keyed e (List.mem_filter.1 he).1 },
    result.2)

def insert (s : PathSet W) (path : Text) : PathSet W where
  entries := insertKey (W.pathKey path) path s.entries
  sorted := insertKey_sorted s.sorted
  keyed := by
    intro e he
    rcases mem_insertKey he with rfl | he
    · rfl
    · exact s.keyed e he

/-- The set, and the paths that the root absorbs. -/
def retainRoot (s : PathSet W) (path : Text) : PathSet W × List Text :=
  if s.covers path then (s, [])
  else
    let removed := s.removeUnder path
    (removed.1.insert path, removed.2)

/-! ## Members -/

variable {s : PathSet W} {path root m : Text}

theorem mem_iter : m ∈ s.iter ↔ (W.pathKey m, m) ∈ s.entries := by
  rw [iter, List.mem_map]
  constructor
  · rintro ⟨e, he, rfl⟩
    rw [s.keyed e he]
    exact he
  · intro hm
    exact ⟨_, hm, rfl⟩

theorem containsKey_iff {key : Text} :
    s.containsKey key = true ↔ ∃ m ∈ s.iter, W.pathKey m = key := by
  rw [containsKey, Option.isSome_iff_exists]
  constructor
  · rintro ⟨m, hm⟩
    have hmem := (lookup_eq_some_iff s.sorted).1 hm
    have hkey : W.pathKey m = key := s.keyed _ hmem
    exact ⟨m, mem_iter.2 (hkey ▸ hmem), hkey⟩
  · rintro ⟨m, hm, rfl⟩
    exact ⟨m, (lookup_eq_some_iff s.sorted).2 (mem_iter.1 hm)⟩

/-- Members are told apart by their keys. -/
theorem eq_of_key {m' : Text} (hm : m ∈ s.iter) (hm' : m' ∈ s.iter)
    (h : W.pathKey m = W.pathKey m') : m = m' := by
  have hfound := (lookup_eq_some_iff s.sorted).2 (mem_iter.1 hm)
  have hfound' := (lookup_eq_some_iff s.sorted).2 (mem_iter.1 hm')
  rw [h, hfound'] at hfound
  exact (Option.some.inj hfound).symm

theorem mem_insert : m ∈ (s.insert path).iter ↔
    m = path ∨ m ∈ s.iter ∧ W.pathKey m ≠ W.pathKey path := by
  rw [mem_iter, mem_iter]
  refine (mem_insertKey_iff s.sorted _).trans ?_
  rw [Prod.mk.injEq]
  exact or_congr ⟨fun h => h.2, fun h => ⟨h ▸ rfl, h⟩⟩ Iff.rfl

end PathSet

/-! ## Under -/

theorem isPathUnder_iff {path root : Text} :
    isPathUnder path root = true ↔ Under '\\' path (trimEnd '\\' root) := by
  rw [isPathUnder]
  generalize trimEnd '\\' root = start
  simp only [Bool.and_eq_true, decide_eq_true_eq, List.isPrefixOf_iff_prefix, beq_iff_eq]
  constructor
  · rintro ⟨⟨_, rest, rfl⟩, hat⟩
    cases rest with
    | nil => simp at hat
    | cons c rest =>
      rw [List.getElem?_append_right (Nat.le_refl _), Nat.sub_self, List.getElem?_cons_zero] at hat
      exact ⟨rest, by rw [Option.some.inj hat]⟩
  · rintro ⟨rest, rfl⟩
    refine ⟨⟨by rw [List.length_append, List.length_cons]; omega, List.prefix_append _ _⟩, ?_⟩
    rw [List.getElem?_append_right (Nat.le_refl _), Nat.sub_self, List.getElem?_cons_zero]

/-- The path is the root, or lies under it. -/
def Within (W : WatchPaths) (path root : Text) : Prop :=
  W.pathKey path = W.pathKey root ∨ isPathUnder (W.pathKey path) (W.pathKey root) = true

/-- The key ends with a separator: only roots of volumes have such keys. -/
def IsVolumeRoot (W : WatchPaths) (path : Text) : Prop := (W.pathKey path).getLast? = some '\\'

instance (W : WatchPaths) (path : Text) : Decidable (IsVolumeRoot W path) :=
  inferInstanceAs (Decidable (_ = _))

instance (W : WatchPaths) (path root : Text) : Decidable (Within W path root) :=
  inferInstanceAs (Decidable (_ ∨ _))

theorem within_iff {W : WatchPaths} {path root : Text} (hroot : ¬ IsVolumeRoot W root) :
    Within W path root ↔
      W.pathKey path = W.pathKey root ∨ Under '\\' (W.pathKey path) (W.pathKey root) := by
  rw [Within, isPathUnder_iff, trimEnd_of_getLast hroot]

theorem Within.trans {W : WatchPaths} {path middle root : Text} (hmiddle : ¬ IsVolumeRoot W middle)
    (h : Within W path middle) (h' : Within W middle root) : Within W path root := by
  rcases (within_iff hmiddle).1 h with heq | hunder
  · rw [Within, heq]
    exact h'
  · right
    rw [isPathUnder_iff]
    rcases h' with heq | hunder'
    · rw [← heq, trimEnd_of_getLast hmiddle]
      exact hunder
    · exact hunder.trans (isPathUnder_iff.1 hunder')

namespace PathSet

variable {W : WatchPaths} {s : PathSet W} {path root m : Text}

/-! ## What the operations do -/

theorem coversFrom_iff {n : Nat} {ancestor : Text} (hn : ancestor.length < n) :
    s.coversFrom n ancestor = true ↔
      ∃ m ∈ s.iter, W.pathKey m = ancestor ∨ Under '\\' ancestor (W.pathKey m) := by
  induction n generalizing ancestor with
  | zero => exact absurd hn (by simp)
  | succ n ih =>
    rw [coversFrom, Bool.or_eq_true, containsKey_iff]
    cases hcut : rsplitOnce '\\' ancestor with
    | none =>
      simp [not_under_of_rsplitOnce hcut]
    | some cut =>
      obtain ⟨front, back⟩ := cut
      have hlen : front.length < n := by
        rw [(rsplitOnce_eq_some hcut).1, List.length_append, List.length_cons] at hn
        omega
      dsimp only
      rw [ih hlen, ← exists_or]
      refine exists_congr fun m => ?_
      rw [← and_or_left, under_iff_of_rsplitOnce hcut]

theorem covers_iff : s.covers path = true ↔ ∃ m ∈ s.iter,
    W.pathKey m = W.pathKey path ∨ Under '\\' (W.pathKey path) (W.pathKey m) :=
  coversFrom_iff (Nat.lt_succ_self _)

/-- A covered path is within a member, whatever the members are. -/
theorem within_of_covers (h : s.covers path = true) : ∃ m ∈ s.iter, Within W path m := by
  obtain ⟨m, hm, heq | hunder⟩ := covers_iff.1 h
  · exact ⟨m, hm, Or.inl heq.symm⟩
  · exact ⟨m, hm, Or.inr (isPathUnder_iff.2 hunder.trimEnd)⟩

theorem mem_keysUnder {key k : Text} (hk : s.containsKey k = true) :
    k ∈ s.keysUnder key ↔ k = key ∨ isPathUnder k key = true := by
  have hrange := range_prefix (trimEnd '\\' key ++ ['\\']) s.sorted
  have hin : k ∈ (s.entries.filter fun e => trimEnd '\\' key ++ ['\\'] <+: e.1).map Prod.fst ↔
      isPathUnder k key = true := by
    rw [isPathUnder_iff, under_iff_prefix, List.mem_map]
    constructor
    · rintro ⟨e, he, rfl⟩
      exact of_decide_eq_true (List.mem_filter.1 he).2
    · intro hprefix
      obtain ⟨m, hm, rfl⟩ := containsKey_iff.1 hk
      exact ⟨_, List.mem_filter.2 ⟨mem_iter.1 hm, decide_eq_true hprefix⟩, rfl⟩
  rw [keysUnder, hrange]
  by_cases hkey : s.containsKey key = true
  · rw [if_pos hkey, List.mem_append, List.mem_singleton, hin, or_comm]
  · rw [if_neg hkey, hin]
    refine ⟨Or.inr, fun h => h.resolve_left ?_⟩
    rintro rfl
    exact hkey hk

theorem mem_keysUnder_of_entry {e : Text × Text} (he : e ∈ s.entries) :
    e.1 ∈ s.keysUnder (W.pathKey path) ↔ Within W e.2 path := by
  have hkey := s.keyed e he
  have hmem : e.2 ∈ s.iter := List.mem_map_of_mem he
  rw [mem_keysUnder (containsKey_iff.2 ⟨e.2, hmem, hkey⟩), Within, hkey]

theorem removeUnder_iter :
    (s.removeUnder path).1.iter = s.iter.filter fun m => ¬ Within W m path := by
  have hentries : (s.removeUnder path).1.entries =
      s.entries.filter fun e => ¬ Within W e.2 path := by
    refine ((removeKeys_gives _ s.sorted).1).trans (List.filter_congr fun e he => ?_)
    rw [decide_eq_decide, mem_keysUnder_of_entry he]
  rw [iter, hentries, iter, List.filter_map]
  rfl

theorem removeUnder_removed :
    (s.removeUnder path).2.Perm (s.iter.filter fun m => Within W m path) := by
  have hperm := (removeKeys_gives (s.keysUnder (W.pathKey path)) s.sorted).2
  rw [iter, List.filter_map]
  refine hperm.trans (List.Perm.of_eq (congrArg (List.map Prod.snd)
    (List.filter_congr fun e he => ?_)))
  rw [Function.comp_apply, decide_eq_decide, mem_keysUnder_of_entry he]

/-! ## Runs -/

/-- What a set is built with. -/
inductive Call
  | retainRoot (path : Text)
  | removeUnder (path : Text)

def call (s : PathSet W) : Call → PathSet W
  | .retainRoot path => (s.retainRoot path).1
  | .removeUnder path => (s.removeUnder path).1

def run (calls : List Call) : PathSet W := calls.foldl call {}

/-- No member ends with a separator or lies under another one. -/
structure Apart (s : PathSet W) : Prop where
  names : ∀ m ∈ s.iter, ¬ IsVolumeRoot W m
  apart : ∀ m ∈ s.iter, ∀ m' ∈ s.iter, isPathUnder (W.pathKey m) (W.pathKey m') = true → m = m'

theorem Apart.covers_iff (h : s.Apart) :
    s.covers path = true ↔ ∃ m ∈ s.iter, Within W path m := by
  constructor
  · exact within_of_covers
  · rintro ⟨m, hm, hwithin⟩
    rw [PathSet.covers_iff]
    refine ⟨m, hm, ?_⟩
    exact ((within_iff (h.names m hm)).1 hwithin).imp_left Eq.symm

theorem mem_removeUnder :
    m ∈ (s.removeUnder path).1.iter ↔ m ∈ s.iter ∧ ¬ Within W m path := by
  rw [removeUnder_iter, List.mem_filter, decide_eq_true_eq]

theorem Apart.removeUnder (h : s.Apart) : (s.removeUnder path).1.Apart where
  names m hm := h.names m (mem_removeUnder.1 hm).1
  apart m hm m' hm' := h.apart m (mem_removeUnder.1 hm).1 m' (mem_removeUnder.1 hm').1

/-- The members of a set with a new root. -/
theorem mem_retainRoot (hcovers : s.covers path = false) : m ∈ (s.retainRoot path).1.iter ↔
    m = path ∨ m ∈ s.iter ∧ ¬ Within W m path := by
  rw [retainRoot, if_neg (by simp [hcovers]), mem_insert, mem_removeUnder]
  refine or_congr_right ⟨fun hm => hm.1, fun hm => ⟨hm, fun hkey => hm.2 (Or.inl hkey)⟩⟩

theorem Apart.retainRoot (h : s.Apart) (hroot : ¬ IsVolumeRoot W path) :
    (s.retainRoot path).1.Apart := by
  by_cases hcovers : s.covers path = true
  · rw [PathSet.retainRoot, if_pos hcovers]
    exact h
  · have hmem (m : Text) := mem_retainRoot (m := m) (Bool.eq_false_iff.2 hcovers)
    constructor
    · intro m hm
      rcases (hmem m).1 hm with rfl | ⟨hm, _⟩
      · exact hroot
      · exact h.names m hm
    · intro m hm m' hm' hunder
      rcases (hmem m).1 hm with rfl | ⟨hm, hnot⟩
      · rcases (hmem m').1 hm' with rfl | ⟨hm', _⟩
        · rfl
        · exact absurd (h.covers_iff.2 ⟨m', hm', Or.inr hunder⟩) hcovers
      · rcases (hmem m').1 hm' with rfl | ⟨hm', _⟩
        · exact absurd (Or.inr hunder) hnot
        · exact h.apart m hm m' hm' hunder

/-- What the set says of the paths, and what its operations do. -/
structure Exact (s : PathSet W) : Prop where
  covers_iff : ∀ path, s.covers path = true ↔ ∃ m ∈ s.iter, Within W path m
  apart : ∀ m ∈ s.iter, ∀ m' ∈ s.iter, isPathUnder (W.pathKey m) (W.pathKey m') = true → m = m'
  keeps : ∀ root, ¬ IsVolumeRoot W root → ∀ path, s.covers path = true →
    (s.retainRoot root).1.covers path = true
  absorbs : ∀ root, ¬ IsVolumeRoot W root → (s.retainRoot root).2.Perm
    (s.iter.filter fun m => s.covers root = false ∧ Within W m root)
  leaves : ∀ path, (s.removeUnder path).1.iter = s.iter.filter fun m => ¬ Within W m path
  removes : ∀ path, (s.removeUnder path).2.Perm (s.iter.filter fun m => Within W m path)

theorem Apart.exact (h : s.Apart) : s.Exact where
  covers_iff _ := h.covers_iff
  apart := h.apart
  keeps root hroot path hpath := by
    by_cases hcovers : s.covers root = true
    · rw [PathSet.retainRoot, if_pos hcovers]
      exact hpath
    · have hmem (m : Text) := mem_retainRoot (m := m) (Bool.eq_false_iff.2 hcovers)
      obtain ⟨m, hm, hwithin⟩ := h.covers_iff.1 hpath
      rw [(h.retainRoot hroot).covers_iff]
      by_cases hroot' : Within W m root
      · exact ⟨root, (hmem root).2 (Or.inl rfl), hwithin.trans (h.names m hm) hroot'⟩
      · exact ⟨m, (hmem m).2 (Or.inr ⟨hm, hroot'⟩), hwithin⟩
  absorbs root _ := by
    by_cases hcovers : s.covers root = true
    · rw [PathSet.retainRoot, if_pos hcovers]
      simp [hcovers]
    · rw [PathSet.retainRoot, if_neg hcovers]
      simpa [hcovers] using removeUnder_removed
  leaves _ := removeUnder_iter
  removes _ := removeUnder_removed

/-- In a run that retains no root of a volume, every set is exact. -/
theorem run_exact (W : WatchPaths) (calls : List Call)
    (hroots : ∀ root, Call.retainRoot root ∈ calls → ¬ IsVolumeRoot W root) :
    (run calls : PathSet W).Exact := by
  have hapart : (run calls : PathSet W).Apart := by
    induction calls using List.reverseRecOn with
    | nil => exact ⟨fun m hm => absurd hm (by simp [run, iter]), fun m hm => absurd hm (by simp [run, iter])⟩
    | append_singleton calls c ih =>
      have hbefore := ih fun root hroot => hroots root (List.mem_append_left _ hroot)
      rw [run, List.foldl_append]
      cases c with
      | retainRoot path => exact hbefore.retainRoot (hroots path (by simp))
      | removeUnder path => exact hbefore.removeUnder
  exact hapart.exact

/-- A root, a path under it and a sibling of the root that only starts like it. -/
theorem run_exact_three :
    (run [.retainRoot "C:\\out\\a".toList, .retainRoot "C:\\out".toList,
      .removeUnder "C:\\out.old".toList] : PathSet ⟨.asciiOnly, id⟩).Exact :=
  run_exact _ _ fun root hroot => by
    simp only [List.mem_cons, Call.retainRoot.injEq, List.not_mem_nil, reduceCtorEq, or_false]
      at hroot
    rcases hroot with rfl | rfl
    · decide
    · decide

/-- The root of a volume is a member that covers no other path: the walk from `c:\foo` ends at `c:`,
and what the root absorbed is not covered any more. -/
theorem volume_root_covers_nothing :
    let W : WatchPaths := ⟨.asciiOnly, id⟩
    let s : PathSet W := run [.retainRoot "C:\\foo".toList]
    let t : PathSet W := run [.retainRoot "C:\\foo".toList, .retainRoot "C:\\".toList]
    t.iter = ["C:\\".toList] ∧ Within W "C:\\foo".toList "C:\\".toList ∧
      s.covers "C:\\foo".toList = true ∧ t.covers "C:\\foo".toList = false ∧ ¬ t.Exact := by
  intro W s t
  have hiter : t.iter = ["C:\\".toList] := by decide
  have hwithin : Within W "C:\\foo".toList "C:\\".toList := by decide
  have hnot : t.covers "C:\\foo".toList = false := by decide
  refine ⟨hiter, hwithin, by decide, hnot, fun hexact => ?_⟩
  have hcovers := (hexact.covers_iff "C:\\foo".toList).2
    ⟨"C:\\".toList, by rw [hiter]; exact List.mem_singleton_self _, hwithin⟩
  rw [hnot] at hcovers
  exact absurd hcovers (by simp)

end PathSet

end Sunpack.WatchStore
