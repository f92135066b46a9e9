import Sunpack.Lib.FirstFree

/-!
# The output path allocator

`OutputPathAllocator` of the 7-Zip bridge: every archive item gets a path below the output root that
no other item has, up to case. Paths are lists of names relative to the root; what a name is, its
case key and its numbered variants are the `Naming`. A number is searched from a counter that is kept
for the requested key, whether a file or a directory asks.
-/

namespace Sunpack.OutputPaths

open Lib

/-- Names with their case keys; `numbered isDirectory name n` is `name(n)`, before the extension of a
file. -/
structure Naming (ν κ : Type) where
  key : ν → κ
  numbered : Bool → ν → Nat → ν
  numbered_inj : ∀ isDirectory name, Function.Injective fun n => key (numbered isDirectory name n)

/-- What exists below the root: keys of paths, and whether they are directories. -/
abbrev Disk (κ : Type) := List (List κ × Bool)

/-- The maps are association lists, newest entry first. -/
structure OutputPathAllocator (ν κ : Type) where
  used : List (List κ) := []
  nextNumbers : List (List κ × Nat) := []
  directories : List (List κ × List ν) := []

namespace OutputPathAllocator

variable {ν κ : Type} [DecidableEq κ] (N : Naming ν κ)

/-- `normalized_output_path_key`. -/
def pathKey (path : List ν) : List κ := path.map N.key

/-- The `n`-th numbered variant of a path. -/
def candidate (parent : List ν) (name : ν) (isDirectory : Bool) (n : Nat) : List ν :=
  parent ++ [N.numbered isDirectory name n]

def available (disk : Disk κ) (a : OutputPathAllocator ν κ) (key : List κ) : Bool :=
  key ∉ a.used && key ∉ disk.map (·.1)

/-- The requested path is `parent / name`. -/
def allocateName (disk : Disk κ) (initiallyEmpty : Bool) (a : OutputPathAllocator ν κ)
    (parent : List ν) (name : ν) (isDirectory : Bool) : OutputPathAllocator ν κ × List ν :=
  let requested := parent ++ [name]
  let key := pathKey N requested
  -- in the common case of an empty output the disk is not asked
  if initiallyEmpty && key ∉ a.used then ({ a with used := key :: a.used }, requested)
  else if !initiallyEmpty && key ∉ a.used &&
      (a.available disk key || (isDirectory && (key, true) ∈ disk)) then
    ({ a with used := key :: a.used }, requested)
  else
    let next := (a.nextNumbers.lookup key).getD 1
    let number := firstFree (a.used ++ disk.map (·.1))
      (fun n => pathKey N (candidate N parent name isDirectory n)) next
    let path := candidate N parent name isDirectory number
    ({ a with
        used := pathKey N path :: a.used
        nextNumbers := (key, number + 1) :: a.nextNumbers }, path)

/-- `directory`, on the reversed names of the requested path: the longest prefix that has been
redirected before, and new directories below it. -/
def directoryRev (disk : Disk κ) (initiallyEmpty : Bool) (a : OutputPathAllocator ν κ) :
    List ν → OutputPathAllocator ν κ × List ν
  | [] => (a, [])
  | name :: above =>
    let key := pathKey N (name :: above).reverse
    match a.directories.lookup key with
    | some mapped => (a, mapped)
    | none =>
      let (a, parent) := directoryRev disk initiallyEmpty a above
      let (a, path) := a.allocateName N disk initiallyEmpty parent name true
      ({ a with directories := (key, path) :: a.directories }, path)

def directory (disk : Disk κ) (initiallyEmpty : Bool) (a : OutputPathAllocator ν κ)
    (requested : List ν) : OutputPathAllocator ν κ × List ν :=
  a.directoryRev N disk initiallyEmpty requested.reverse

/-- `allocate`, for the names of a path that is not the root. -/
def allocate (disk : Disk κ) (initiallyEmpty : Bool) (a : OutputPathAllocator ν κ)
    (requested : List ν) (isDirectory : Bool) : OutputPathAllocator ν κ × List ν :=
  if isDirectory then a.directory N disk initiallyEmpty requested
  else
    match requested.reverse with
    | [] => (a, [])
    | name :: above =>
      let (a, parent) := a.directoryRev N disk initiallyEmpty above
      a.allocateName N disk initiallyEmpty parent name false

/-! ## Naming a path -/

/-- The disk holds nothing but allocated paths. -/
def Covers (a : OutputPathAllocator ν κ) (disk : Disk κ) : Prop := ∀ entry ∈ disk, entry.1 ∈ a.used

variable {N}

omit [DecidableEq κ] in
theorem candidate_injective (parent : List ν) (name : ν) (isDirectory : Bool) :
    Function.Injective fun n => pathKey N (candidate N parent name isDirectory n) := by
  intro m n h
  refine N.numbered_inj isDirectory name ?_
  have h' : parent.map N.key ++ [N.key (N.numbered isDirectory name m)] =
      parent.map N.key ++ [N.key (N.numbered isDirectory name n)] := by
    simpa [pathKey, candidate] using h
  exact List.singleton_injective (List.append_cancel_left h')

/-- The number that a taken name gets: the first one from the counter on that is not used. -/
def numberFor (N : Naming ν κ) (a : OutputPathAllocator ν κ) (parent : List ν) (name : ν)
    (isDirectory : Bool) : Nat :=
  firstFree a.used (fun n => pathKey N (candidate N parent name isDirectory n))
    ((a.nextNumbers.lookup (pathKey N (parent ++ [name]))).getD 1)

/-- On a disk with nothing foreign on it, the disk does not matter. -/
theorem allocateName_eq {disk : Disk κ} {a : OutputPathAllocator ν κ} (h : a.Covers disk)
    (parent : List ν) (name : ν) (isDirectory : Bool) :
    a.allocateName N disk true parent name isDirectory =
      if pathKey N (parent ++ [name]) ∉ a.used then
        ({ a with used := pathKey N (parent ++ [name]) :: a.used }, parent ++ [name])
      else
        ({ a with
            used := pathKey N (candidate N parent name isDirectory
              (a.numberFor N parent name isDirectory)) :: a.used
            nextNumbers := (pathKey N (parent ++ [name]),
              a.numberFor N parent name isDirectory + 1) :: a.nextNumbers },
          candidate N parent name isDirectory (a.numberFor N parent name isDirectory)) := by
  have hinj := candidate_injective (N := N) parent name isDirectory
  have hnumber : firstFree (a.used ++ disk.map (·.1))
      (fun n => pathKey N (candidate N parent name isDirectory n))
      ((a.nextNumbers.lookup (pathKey N (parent ++ [name]))).getD 1) =
        a.numberFor N parent name isDirectory := by
    refine firstFree_eq hinj (firstFree_le _ _ _) (fun hmem => ?_) fun m hm hlt =>
      List.mem_append_left _ (mem_of_lt_firstFree hm hlt)
    have hfree : pathKey N (candidate N parent name isDirectory
        (a.numberFor N parent name isDirectory)) ∉ a.used := firstFree_free hinj _
    refine hfree ?_
    rcases List.mem_append.1 hmem with hmem | hmem
    · exact hmem
    · obtain ⟨entry, hentry, heq⟩ := List.mem_map.1 hmem
      exact heq ▸ h entry hentry
  simp only [allocateName, hnumber, Bool.true_and, Bool.not_true, Bool.false_and,
    Bool.false_eq_true, if_false, decide_eq_true_eq]

/-- A path that was free before, below the given parent. -/
theorem allocateName_fresh {disk : Disk κ} {a a' : OutputPathAllocator ν κ} (h : a.Covers disk)
    {parent path : List ν} {name : ν} {isDirectory : Bool}
    (heq : a.allocateName N disk true parent name isDirectory = (a', path)) :
    pathKey N path ∉ a.used ∧ a'.used = pathKey N path :: a.used ∧
      a'.directories = a.directories ∧ ∃ name', path = parent ++ [name'] := by
  rw [allocateName_eq h] at heq
  split_ifs at heq with hused
  · obtain ⟨rfl, rfl⟩ := Prod.mk.inj heq
    exact ⟨firstFree_free (candidate_injective parent name isDirectory) _, rfl, rfl, _, rfl⟩
  · obtain ⟨rfl, rfl⟩ := Prod.mk.inj heq
    exact ⟨hused, rfl, rfl, name, rfl⟩

omit [DecidableEq κ] in
theorem Covers.mono {a a' : OutputPathAllocator ν κ} {disk : Disk κ} (h : a.Covers disk)
    (hsub : a.used ⊆ a'.used) : a'.Covers disk :=
  fun entry hentry => hsub (h entry hentry)

/-! ## Renaming -/

/-- Names and keys in another representation. -/
structure Renaming {ν' κ' : Type} (N : Naming ν κ) (N' : Naming ν' κ') where
  name : ν → ν'
  key : κ → κ'
  key_injective : Function.Injective key
  key_name : ∀ x, N'.key (name x) = key (N.key x)
  numbered_name : ∀ isDirectory x n, N'.numbered isDirectory (name x) n =
    name (N.numbered isDirectory x n)

section Renaming

variable {ν' κ' : Type} [DecidableEq κ'] {N' : Naming ν' κ'} (R : Renaming N N')

def rename (a : OutputPathAllocator ν κ) : OutputPathAllocator ν' κ' where
  used := a.used.map (List.map R.key)
  nextNumbers := a.nextNumbers.map fun entry => (entry.1.map R.key, entry.2)
  directories := a.directories.map fun entry => (entry.1.map R.key, entry.2.map R.name)

omit [DecidableEq κ] [DecidableEq κ'] in
theorem lookup_map {α α' β β' : Type} [BEq α] [LawfulBEq α] [BEq α'] [LawfulBEq α'] {f : α → α'}
    (hf : Function.Injective f) (g : β → β') (l : List (α × β)) (a : α) :
    (l.map fun entry => (f entry.1, g entry.2)).lookup (f a) = (l.lookup a).map g := by
  induction l with
  | nil => rfl
  | cons entry l ih =>
    obtain ⟨b, c⟩ := entry
    rcases eq_or_ne a b with rfl | h
    · simp
    · have h' : f a ≠ f b := fun heq => h (hf heq)
      rw [List.map_cons, List.lookup_cons, List.lookup_cons, beq_false_of_ne h,
        beq_false_of_ne h', ih]

omit [DecidableEq κ] [DecidableEq κ'] in
theorem pathKey_rename (path : List ν) :
    pathKey N' (path.map R.name) = (pathKey N path).map R.key := by
  simp only [pathKey, List.map_map]
  exact List.map_congr_left fun x _ => R.key_name x

omit [DecidableEq κ] [DecidableEq κ'] in
theorem candidate_rename (parent : List ν) (name : ν) (isDirectory : Bool) (n : Nat) :
    candidate N' (parent.map R.name) (R.name name) isDirectory n =
      (candidate N parent name isDirectory n).map R.name := by
  rw [candidate, candidate, R.numbered_name, List.map_append, List.map_singleton]

theorem allocateName_rename {disk : Disk κ} {disk' : Disk κ'} {a : OutputPathAllocator ν κ}
    (h : a.Covers disk) (h' : (a.rename R).Covers disk') (parent : List ν) (name : ν)
    (isDirectory : Bool) :
    (a.rename R).allocateName N' disk' true (parent.map R.name) (R.name name) isDirectory =
      ((a.allocateName N disk true parent name isDirectory).1.rename R,
        (a.allocateName N disk true parent name isDirectory).2.map R.name) := by
  have hinj : Function.Injective (List.map R.key) := List.map_injective_iff.2 R.key_injective
  have happ : parent.map R.name ++ [R.name name] = (parent ++ [name]).map R.name := by simp
  have hused : pathKey N' ((parent ++ [name]).map R.name) ∉ (a.rename R).used ↔
      pathKey N (parent ++ [name]) ∉ a.used := by
    rw [pathKey_rename, rename, List.mem_map_of_injective hinj]
  have hnumber : (a.rename R).numberFor N' (parent.map R.name) (R.name name) isDirectory =
      a.numberFor N parent name isDirectory := by
    have hcand (n : Nat) : pathKey N' (candidate N' (parent.map R.name) (R.name name) isDirectory n)
        = (pathKey N (candidate N parent name isDirectory n)).map R.key := by
      rw [candidate_rename, pathKey_rename]
    have hnext : (a.rename R).nextNumbers.lookup (pathKey N' ((parent ++ [name]).map R.name)) =
        a.nextNumbers.lookup (pathKey N (parent ++ [name])) := by
      rw [pathKey_rename]
      have hlookup := lookup_map hinj id a.nextNumbers (pathKey N (parent ++ [name]))
      rwa [Option.map_id] at hlookup
    simp only [numberFor, hcand, happ, hnext]
    exact firstFree_map hinj a.used _ _
  rw [allocateName_eq h, allocateName_eq h', happ, hnumber, candidate_rename]
  by_cases hfree : pathKey N (parent ++ [name]) ∉ a.used
  · rw [if_pos hfree, if_pos (hused.2 hfree)]
    simp only [rename, pathKey_rename, List.map_cons]
  · rw [if_neg hfree, if_neg fun h => hfree (hused.1 h)]
    simp only [rename, pathKey_rename, List.map_cons]

theorem allocateName_used_subset {disk : Disk κ} {a : OutputPathAllocator ν κ} (h : a.Covers disk)
    (parent : List ν) (name : ν) (isDirectory : Bool) :
    a.used ⊆ (a.allocateName N disk true parent name isDirectory).1.used := by
  cases heq : a.allocateName N disk true parent name isDirectory with
  | mk a' path =>
    rw [(allocateName_fresh h heq).2.1]
    exact List.subset_cons_self _ _

theorem directoryRev_used_subset {disk : Disk κ} {a : OutputPathAllocator ν κ} (h : a.Covers disk)
    (names : List ν) : a.used ⊆ (a.directoryRev N disk true names).1.used := by
  induction names with
  | nil => exact List.Subset.refl _
  | cons name above ih =>
    rw [directoryRev]
    split
    · exact List.Subset.refl _
    · exact List.Subset.trans ih (allocateName_used_subset (h.mono ih) _ _ _)

theorem directoryRev_rename {disk : Disk κ} {disk' : Disk κ'} {a : OutputPathAllocator ν κ}
    (h : a.Covers disk) (h' : (a.rename R).Covers disk') (names : List ν) :
    (a.rename R).directoryRev N' disk' true (names.map R.name) =
      ((a.directoryRev N disk true names).1.rename R,
        (a.directoryRev N disk true names).2.map R.name) := by
  have hinj : Function.Injective (List.map R.key) := List.map_injective_iff.2 R.key_injective
  induction names with
  | nil => rfl
  | cons name above ih =>
    have hkey : pathKey N' (R.name name :: above.map R.name).reverse =
        (pathKey N (name :: above).reverse).map R.key := by
      rw [← pathKey_rename, List.map_reverse, List.map_cons]
    have hlookup : (a.rename R).directories.lookup ((pathKey N (name :: above).reverse).map R.key) =
        (a.directories.lookup (pathKey N (name :: above).reverse)).map (List.map R.name) :=
      lookup_map hinj _ a.directories _
    rw [List.map_cons, directoryRev, directoryRev, hkey, hlookup]
    cases a.directories.lookup (pathKey N (name :: above).reverse) with
    | some mapped => rfl
    | none =>
      have hsub := directoryRev_used_subset (N := N) h above
      have hsub' := directoryRev_used_subset (N := N') h' (above.map R.name)
      have hcover := h'.mono hsub'
      simp only [Option.map_none, ih] at hcover ⊢
      rw [allocateName_rename R (h.mono hsub) hcover]
      rfl

/-- An allocator makes the same paths from renamed names. -/
theorem allocate_rename {disk : Disk κ} {disk' : Disk κ'} {a : OutputPathAllocator ν κ}
    (h : a.Covers disk) (h' : (a.rename R).Covers disk') (requested : List ν) (isDirectory : Bool) :
    (a.rename R).allocate N' disk' true (requested.map R.name) isDirectory =
      ((a.allocate N disk true requested isDirectory).1.rename R,
        (a.allocate N disk true requested isDirectory).2.map R.name) := by
  cases isDirectory with
  | true =>
    simp only [allocate, if_true, directory, ← List.map_reverse]
    exact directoryRev_rename R h h' _
  | false =>
    simp only [allocate, Bool.false_eq_true, if_false, ← List.map_reverse]
    cases requested.reverse with
    | nil => rfl
    | cons name above =>
      have hcover := h'.mono (directoryRev_used_subset (N := N') h' (above.map R.name))
      simp only [List.map_cons, directoryRev_rename R h h'] at hcover ⊢
      exact allocateName_rename R (h.mono (directoryRev_used_subset (N := N) h above)) hcover _ _ _

end Renaming

end OutputPathAllocator

end Sunpack.OutputPaths
