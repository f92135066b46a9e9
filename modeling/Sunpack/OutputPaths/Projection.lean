import Sunpack.OutputPaths.FileNames
import Sunpack.OutputPaths.Requests

/-!
# The verifier's projection

The verifier recomputes the output path of every item from the names of the items alone
(`verification/paths.rs`), on slash-joined strings. It gets the paths that the worker chose: both
allocators are images of one allocator on file names.
-/

namespace Sunpack.OutputPaths

open Lib

namespace Verifier

/-- A numbered variant of a slash-joined path. -/
def numberedPath (requested : Text) (isDirectory : Bool) (n : Nat) : Text :=
  let (above, name) := match splitLast (· == '/') requested with
    | some (above, name) => (above ++ ['/'], name)
    | none => ([], requested)
  let (stem, extension) := if isDirectory then (name, []) else splitExtension '.' name
  above ++ (stem ++ number n ++ extension)

/-- `rsplit_once('/')`, with an empty parent if there is no slash. -/
def parentAndName (path : Text) : Text × Text := (splitLast (· == '/') path).getD ([], path)

theorem parentAndName_length {path : Text} (h : ¬ path.isEmpty = true) :
    (parentAndName path).1.length < path.length := by
  rw [parentAndName]
  cases heq : splitLast (· == '/') path with
  | none => exact List.length_pos_iff.2 fun hnil => h (List.isEmpty_iff.2 hnil)
  | some r =>
    obtain ⟨above, name⟩ := r
    obtain ⟨_, _, rfl, _⟩ := splitLast_some heq
    simp only [Option.getD_some, List.length_append, List.length_cons]
    omega

/-- `format!("{parent}/{name}")`, or the name alone below the root. -/
def below (parent name : Text) : Text := if parent.isEmpty then name else parent ++ '/' :: name

/-- The spill maps are association lists, newest entry first. -/
structure OutputPathAllocator where
  used : List Text := []
  nextNumbers : List (Text × Nat) := []
  directories : List (Text × Text) := []

namespace OutputPathAllocator

variable (T : DowncaseTable)

def allocateName (a : OutputPathAllocator) (requested : Text) (isDirectory : Bool) :
    OutputPathAllocator × Text :=
  let key := T.caseKey requested
  if key ∉ a.used then ({ a with used := key :: a.used }, requested)
  else
    let next := (a.nextNumbers.lookup key).getD 1
    let number := firstFree a.used (fun n => T.caseKey (numberedPath requested isDirectory n)) next
    let candidate := numberedPath requested isDirectory number
    ({ a with
        used := T.caseKey candidate :: a.used
        nextNumbers := (key, number + 1) :: a.nextNumbers }, candidate)

/-- The loop up to a known directory, and the new directories below it. -/
def allocateDirectoryFrom (a : OutputPathAllocator) (cursor : Text) : OutputPathAllocator × Text :=
  if _h : cursor.isEmpty then (a, [])
  else
    match a.directories.lookup (T.caseKey cursor) with
    | some mapped => (a, mapped)
    | none =>
      let (a, parent) := a.allocateDirectoryFrom (parentAndName cursor).1
      let (a, parent) := a.allocateName T (below parent (parentAndName cursor).2) true
      ({ a with directories := (T.caseKey cursor, parent) :: a.directories }, parent)
termination_by cursor.length
decreasing_by exact parentAndName_length ‹_›

def allocateDirectory (a : OutputPathAllocator) (requested : Text) : OutputPathAllocator × Text :=
  a.allocateDirectoryFrom T (requested.rdropWhile (· == '/'))

def allocate (a : OutputPathAllocator) (requested : Text) : OutputPathAllocator × Text :=
  let (parent, name) := parentAndName requested
  let (a, parent) := a.allocateDirectory T parent
  a.allocateName T (below parent name) false

def project (a : OutputPathAllocator) (raw : Text) (isDirectory : Bool) :
    OutputPathAllocator × Text :=
  if unsafeArchivePath raw then (a, raw)
  else
    let clean := windowsOutputRelativePath (cleanRelativeArchivePath raw)
    if isDirectory then a.allocateDirectory T clean else a.allocate T clean

end OutputPathAllocator

end Verifier

/-! ## The verifier's allocator is an image -/

section Verifier

variable (T : DowncaseTable)

open Verifier (join below parentAndName)

theorem join_eq_nil {parts : List Text} (h : ∀ p ∈ parts, p ≠ []) :
    (join parts).isEmpty = parts.isEmpty := by
  cases parts with
  | nil => rfl
  | cons p parts =>
    have hp := h p List.mem_cons_self
    cases parts with
    | nil => simpa [join] using hp
    | cons q parts => simp [join, hp]

theorem join_append_singleton {parts : List Text} (h : ∀ p ∈ parts, p ≠ []) (name : Text) :
    join (parts ++ [name]) = below (join parts) name := by
  rw [below, join_eq_nil h]
  induction parts with
  | nil => simp [join]
  | cons p parts ih =>
    have ih := ih fun q hq => h q (List.mem_cons_of_mem _ hq)
    rw [List.isEmpty_cons, if_neg Bool.false_ne_true, List.cons_append]
    cases parts with
    | nil => simp [join]
    | cons q parts =>
      rw [List.isEmpty_cons, if_neg Bool.false_ne_true] at ih
      simp only [join, List.cons_append, List.intercalate_cons_cons] at ih ⊢
      rw [ih]
      simp

theorem splitLast_slash {name : Text} (hname : '/' ∉ name) (above : Text) :
    splitLast (fun c => c == '/') (above ++ '/' :: name) = some (above, name) := by
  refine splitLast_append (by simp) fun c hc => ?_
  exact beq_false_of_ne fun heq => hname (heq ▸ hc)

theorem splitLast_no_slash {name : Text} (hname : '/' ∉ name) :
    splitLast (fun c => c == '/') name = none := by
  refine splitLast_eq_none.2 fun c hc => ?_
  exact beq_false_of_ne fun heq => hname (heq ▸ hc)

theorem parentAndName_join {parts : List Text} (h : ∀ p ∈ parts, p ≠ []) {name : Text}
    (hname : '/' ∉ name) : parentAndName (join (parts ++ [name])) = (join parts, name) := by
  rw [parentAndName, join_append_singleton h, below]
  split_ifs with hempty
  · rw [splitLast_no_slash hname, Option.getD_none, List.isEmpty_iff.1 hempty]
  · rw [splitLast_slash hname, Option.getD_some]

theorem join_map {f : Char → Char} (hf : f '/' = '/') (parts : List Text) :
    (join parts).map f = join (parts.map (List.map f)) := by
  induction parts with
  | nil => rfl
  | cons p parts ih =>
    cases parts with
    | nil => simp [join]
    | cons q parts =>
      simp only [join, List.map_cons, List.intercalate_cons_cons, List.map_append,
        List.map_nil, hf] at ih ⊢
      rw [ih]

/-- A path of file names. -/
def joinPath (path : List FileName) : Text := join (path.map FileName.text)

def joinKey (key : List FileKey) : Text := join (key.map FileKey.text)

theorem text_ne_nil (path : List FileName) : ∀ p ∈ path.map FileName.text, p ≠ [] := by
  intro p hp
  obtain ⟨x, _, rfl⟩ := List.mem_map.1 hp
  exact x.ne_nil

theorem joinKey_injective : Function.Injective joinKey := by
  intro a b h
  have hnil (k : List FileKey) : ∀ p ∈ k.map FileKey.text, p ≠ [] := by
    intro p hp
    obtain ⟨x, _, rfl⟩ := List.mem_map.1 hp
    exact x.ne_nil
  have hsplit (k : List FileKey) (hk : k ≠ []) : (joinKey k).splitOn '/' = k.map FileKey.text := by
    refine List.splitOn_intercalate '/' (fun p hp => ?_) (by simpa using hk)
    obtain ⟨x, _, rfl⟩ := List.mem_map.1 hp
    exact x.slash
  have hempty : a.isEmpty = b.isEmpty := by
    have ha := join_eq_nil (hnil a)
    have hb := join_eq_nil (hnil b)
    rw [List.isEmpty_map] at ha hb
    rw [← ha, ← hb]
    exact congrArg List.isEmpty h
  by_cases ha : a = []
  · rw [ha] at hempty ⊢
    exact (List.isEmpty_iff.1 hempty.symm).symm
  · have hb : b ≠ [] := by
      rintro rfl
      exact ha (List.isEmpty_iff.1 hempty)
    have hmap := hsplit a ha
    rw [h, hsplit b hb] at hmap
    exact (List.map_injective_iff.2 FileKey.text_injective hmap).symm

theorem joinPath_append (parent : List FileName) (name : FileName) :
    joinPath (parent ++ [name]) = below (joinPath parent) name.text := by
  rw [joinPath, List.map_append, List.map_singleton, join_append_singleton (text_ne_nil parent),
    joinPath]

theorem parentAndName_joinPath (parent : List FileName) (name : FileName) :
    parentAndName (joinPath (parent ++ [name])) = (joinPath parent, name.text) := by
  rw [joinPath, List.map_append, List.map_singleton,
    parentAndName_join (text_ne_nil parent) name.slash, joinPath]

theorem caseKey_joinPath (path : List FileName) :
    T.caseKey (joinPath path) = joinKey (OutputPathAllocator.pathKey (FileName.naming T) path) := by
  rw [DowncaseTable.caseKey_eq_map, joinPath, join_map (T.downcaseChar_ascii (by decide)),
    joinKey, OutputPathAllocator.pathKey, List.map_map, List.map_map]
  refine congrArg join (List.map_congr_left fun x _ => ?_)
  exact (T.caseKey_eq_map x.text).symm

theorem numberedPath_joinPath (parent : List FileName) (name : FileName) (isDirectory : Bool)
    (n : Nat) : Verifier.numberedPath (joinPath (parent ++ [name])) isDirectory n =
      joinPath (OutputPathAllocator.candidate (FileName.naming T) parent name isDirectory n) := by
  have hname : ((FileName.naming T).numbered isDirectory name n).text =
      numberedText isDirectory name.text n := rfl
  rw [Verifier.numberedPath, OutputPathAllocator.candidate, joinPath_append, joinPath_append, below,
    below, hname, numberedText]
  by_cases hempty : (joinPath parent).isEmpty = true
  · rw [if_pos hempty, if_pos hempty, splitLast_no_slash name.slash]
    rfl
  · rw [if_neg hempty, if_neg hempty, splitLast_slash name.slash]
    simp only [List.append_assoc, List.singleton_append]

namespace OutputPathAllocator

/-- The allocator that the verifier has. -/
def projection (a : OutputPathAllocator FileName FileKey) : Verifier.OutputPathAllocator where
  used := a.used.map joinKey
  nextNumbers := a.nextNumbers.map fun entry => (joinKey entry.1, entry.2)
  directories := a.directories.map fun entry => (joinKey entry.1, joinPath entry.2)

theorem covers_nil {ν κ : Type} (a : OutputPathAllocator ν κ) : a.Covers [] := by
  intro entry h
  exact absurd h List.not_mem_nil

theorem projection_allocateName (a : OutputPathAllocator FileName FileKey) (parent : List FileName)
    (name : FileName) (isDirectory : Bool) :
    a.projection.allocateName T (joinPath (parent ++ [name])) isDirectory =
      ((a.allocateName (FileName.naming T) [] true parent name isDirectory).1.projection,
        joinPath (a.allocateName (FileName.naming T) [] true parent name isDirectory).2) := by
  have hused : joinKey (pathKey (FileName.naming T) (parent ++ [name])) ∉ a.projection.used ↔
      pathKey (FileName.naming T) (parent ++ [name]) ∉ a.used := by
    rw [projection, List.mem_map_of_injective joinKey_injective]
  have hnext : a.projection.nextNumbers.lookup
      (joinKey (pathKey (FileName.naming T) (parent ++ [name]))) =
        a.nextNumbers.lookup (pathKey (FileName.naming T) (parent ++ [name])) := by
    have hlookup := lookup_map joinKey_injective id a.nextNumbers
      (pathKey (FileName.naming T) (parent ++ [name]))
    rwa [Option.map_id] at hlookup
  have hnumber := firstFree_map joinKey_injective a.used
    (fun n => pathKey (FileName.naming T) (candidate (FileName.naming T) parent name isDirectory n))
  rw [allocateName_eq (covers_nil a), Verifier.OutputPathAllocator.allocateName]
  simp only [caseKey_joinPath, numberedPath_joinPath T, hnext]
  by_cases hfree : pathKey (FileName.naming T) (parent ++ [name]) ∉ a.used
  · rw [if_pos hfree, if_pos (hused.2 hfree)]
    rfl
  · rw [if_neg hfree, if_neg fun h => hfree (hused.1 h)]
    simp only [numberFor, ← hnumber]
    rfl

theorem projection_directoryRev (a : OutputPathAllocator FileName FileKey)
    (names : List FileName) :
    a.projection.allocateDirectoryFrom T (joinPath names.reverse) =
      ((a.directoryRev (FileName.naming T) [] true names).1.projection,
        joinPath (a.directoryRev (FileName.naming T) [] true names).2) := by
  induction names with
  | nil =>
    rw [Verifier.OutputPathAllocator.allocateDirectoryFrom]
    rfl
  | cons name above ih =>
    have hempty : ¬ (joinPath (above.reverse ++ [name])).isEmpty = true := by
      rw [joinPath, join_eq_nil (text_ne_nil _)]
      simp
    have hlookup : a.projection.directories.lookup
        (joinKey (pathKey (FileName.naming T) (above.reverse ++ [name]))) =
          (a.directories.lookup (pathKey (FileName.naming T) (above.reverse ++ [name]))).map
            joinPath :=
      lookup_map joinKey_injective joinPath a.directories _
    rw [List.reverse_cons, Verifier.OutputPathAllocator.allocateDirectoryFrom, dif_neg hempty,
      directoryRev, List.reverse_cons, caseKey_joinPath, hlookup, parentAndName_joinPath, ih]
    cases a.directories.lookup (pathKey (FileName.naming T) (above.reverse ++ [name])) with
    | some mapped => rfl
    | none =>
      simp only [Option.map_none, ← joinPath_append, projection_allocateName]
      rfl

theorem projection_directory (a : OutputPathAllocator FileName FileKey)
    (requested : List FileName) :
    a.projection.allocateDirectory T (joinPath requested) =
      ((a.directory (FileName.naming T) [] true requested).1.projection,
        joinPath (a.directory (FileName.naming T) [] true requested).2) := by
  have htrim : (joinPath requested).rdropWhile (· == '/') = joinPath requested := by
    rcases List.eq_nil_or_concat requested with rfl | ⟨parent, name, rfl⟩
    · rfl
    rw [List.concat_eq_append, joinPath_append]
    obtain ⟨above, habove⟩ : ∃ above, below (joinPath parent) name.text = above ++ name.text := by
      rw [below]
      split_ifs
      · exact ⟨[], rfl⟩
      · exact ⟨joinPath parent ++ ['/'], by simp⟩
    rw [habove, List.rdropWhile_eq_self_iff]
    intro hne hlast
    rw [List.getLast_append_of_ne_nil _ name.ne_nil] at hlast
    exact name.slash (eq_of_beq hlast ▸ List.getLast_mem name.ne_nil)
  rw [Verifier.OutputPathAllocator.allocateDirectory, htrim, directory, ← projection_directoryRev,
    List.reverse_reverse]

theorem projection_allocate (a : OutputPathAllocator FileName FileKey)
    {requested : List FileName} (h : requested ≠ []) :
    a.projection.allocate T (joinPath requested) =
      ((a.allocate (FileName.naming T) [] true requested false).1.projection,
        joinPath (a.allocate (FileName.naming T) [] true requested false).2) := by
  obtain ⟨parent, name, rfl⟩ := List.eq_nil_or_concat requested |>.resolve_left h
  rw [List.concat_eq_append, Verifier.OutputPathAllocator.allocate, parentAndName_joinPath]
  simp only [projection_directory, ← joinPath_append, projection_allocateName, allocate,
    List.reverse_append, List.reverse_singleton, List.singleton_append, directory,
    Bool.false_eq_true, if_false]

end OutputPathAllocator

end Verifier

end Sunpack.OutputPaths
