import Sunpack.Lib.Machine
import Sunpack.OutputPaths.OutputNames

/-!
# The paths that the verifier allocates

Any sequence of calls of one `OutputPathAllocator` (`verification/paths.rs`): paths of files are new,
a directory keeps its path, every path is in the directory it was asked for, and what an archive name
is projected to is made of usable names.
-/

namespace Sunpack.OutputPaths.Verifier

open Lib

/-! ## Paths -/

theorem slash_notMem_name (path : Text) : '/' ∉ (parentAndName path).2 := by
  rw [parentAndName]
  cases h : splitLast (· == '/') path with
  | none =>
    intro hmem
    exact absurd (splitLast_eq_none.1 h _ hmem) (by simp)
  | some r =>
    obtain ⟨above, name⟩ := r
    obtain ⟨_, _, _, hname⟩ := splitLast_some h
    intro hmem
    exact absurd (hname _ hmem) (by simp)

theorem parentAndName_below (parent : Text) {name : Text} (hname : '/' ∉ name) :
    parentAndName (below parent name) = (parent, name) := by
  rw [parentAndName, below]
  split_ifs with h
  · rw [splitLast_no_slash hname, Option.getD_none, List.isEmpty_iff.1 h]
  · rw [splitLast_slash hname, Option.getD_some]

/-- A name stands at the end of its path. -/
theorem exists_below (parent : Text) : ∃ before, ∀ name, below parent name = before ++ name := by
  by_cases h : parent.isEmpty = true
  · exact ⟨[], fun name => if_pos h⟩
  · exact ⟨parent ++ ['/'], fun name => (if_neg h).trans (by simp)⟩

theorem numberedPath_below (parent : Text) {name : Text} (hname : '/' ∉ name) (isDirectory : Bool)
    (n : Nat) : numberedPath (below parent name) isDirectory n =
      below parent (numberedText isDirectory name n) := by
  rw [numberedPath, below, below]
  by_cases h : parent.isEmpty = true
  · rw [if_pos h, if_pos h, splitLast_no_slash hname]
    rfl
  · rw [if_neg h, if_neg h, splitLast_slash hname]
    simp only [numberedText, List.append_assoc, List.singleton_append]

theorem slash_notMem_numberedText {name : Text} (hname : '/' ∉ name) (isDirectory : Bool) (n : Nat) :
    '/' ∉ numberedText isDirectory name n := by
  obtain ⟨stem, extension, heq, h⟩ := exists_numberedText isDirectory name
  rw [← heq, List.mem_append, not_or] at hname
  rw [h, List.mem_append, List.mem_append]
  rintro ((hs | hn) | he)
  · exact hname.1 hs
  · rcases mem_number hn with hc | hc | hc
    · exact absurd hc (by decide)
    · exact absurd hc (by decide)
    · exact absurd hc (by decide)
  · exact hname.2 he

variable (T : DowncaseTable)

/-- The numbered variants of a path have different keys. -/
theorem caseKey_numberedPath_injective (requested : Text) (isDirectory : Bool) :
    Function.Injective fun n => T.caseKey (numberedPath requested isDirectory n) := by
  obtain ⟨before, after, h⟩ : ∃ before after, ∀ n,
      numberedPath requested isDirectory n = before ++ number n ++ after := by
    rw [funext fun n => numberedPath.eq_1 requested isDirectory n]
    cases hsplit : splitLast (· == '/') requested with
    | none =>
      obtain ⟨stem, extension, _, hnumbered⟩ := exists_numberedText isDirectory requested
      exact ⟨stem, extension, fun n => (List.nil_append _).trans (hnumbered n)⟩
    | some r =>
      obtain ⟨above, name⟩ := r
      obtain ⟨stem, extension, _, hnumbered⟩ := exists_numberedText isDirectory name
      refine ⟨above ++ ['/'] ++ stem, extension, fun n => ?_⟩
      refine (congrArg ((above ++ ['/']) ++ ·) (hnumbered n)).trans ?_
      simp only [List.append_assoc]
  intro m n heq
  simp only [h, DowncaseTable.caseKey_eq_map, List.map_append] at heq
  have hnumber := List.append_cancel_left (List.append_cancel_right heq)
  simp only [← DowncaseTable.caseKey_eq_map, FileName.caseKey_number] at hnumber
  exact number_injective hnumber

theorem caseKey_below (parent name : Text) :
    T.caseKey (below parent name) = below (T.caseKey parent) (T.caseKey name) := by
  have hempty : (T.caseKey parent).isEmpty = parent.isEmpty := by
    rw [T.caseKey_eq_map, List.isEmpty_map]
  rw [below, below, hempty]
  split_ifs
  · rfl
  · simp only [T.caseKey_eq_map, List.map_append, List.map_cons, T.downcaseChar_ascii
      (show '/'.toNat < 128 by decide)]
    rfl

theorem compat_slash : Compat (fun c => [T.downcaseChar c]) (· == '/') (· == '/') where
  single c hc := by
    refine ⟨_, rfl, ?_⟩
    rw [eq_of_beq hc, T.downcaseChar_ascii (by decide)]
    rfl
  other c hc := by
    refine ⟨List.cons_ne_nil _ _, fun b hb => ?_⟩
    rw [List.mem_singleton.1 hb, beq_eq_false_iff_ne]
    intro heq
    rw [T.downcaseChar_slash heq] at hc
    exact absurd hc (by simp)

theorem parentAndName_caseKey (path : Text) : parentAndName (T.caseKey path) =
    (T.caseKey (parentAndName path).1, T.caseKey (parentAndName path).2) := by
  rw [parentAndName, parentAndName, caseKey_eq_encode, (compat_slash T).splitLast]
  cases splitLast (· == '/') path with
  | none => simp [caseKey_eq_encode]
  | some r => simp [caseKey_eq_encode]

theorem caseKey_trim (path : Text) : T.caseKey (path.rdropWhile (· == '/')) =
    (T.caseKey path).rdropWhile (· == '/') := by
  rw [caseKey_eq_encode, caseKey_eq_encode, (compat_slash T).rdropWhile]

/-! ## Paths of usable names -/

/-- A path whose components are usable names. -/
def OutputPath (path : Text) : Prop :=
  ∃ parts : List Text, (∀ part ∈ parts, OutputName part) ∧ path = join parts

theorem OutputPath.nil : OutputPath [] := ⟨[], by simp, rfl⟩

theorem OutputPath.below {parent name : Text} (h : OutputPath parent) (hname : OutputName name) :
    OutputPath (below parent name) := by
  obtain ⟨parts, hparts, rfl⟩ := h
  refine ⟨parts ++ [name], fun part hpart => ?_, ?_⟩
  · rcases List.mem_append.1 hpart with hpart | hpart
    · exact hparts part hpart
    · rw [List.mem_singleton.1 hpart]
      exact hname
  · exact (join_append_singleton (fun part hpart => (hparts part hpart).ne_nil) name).symm

theorem OutputPath.parentAndName {path : Text} (h : OutputPath path) (hne : path ≠ []) :
    OutputPath (parentAndName path).1 ∧ OutputName (parentAndName path).2 := by
  obtain ⟨parts, hparts, rfl⟩ := h
  obtain ⟨parts, name, rfl⟩ : ∃ init name, parts = init ++ [name] := by
    rcases List.eq_nil_or_concat parts with rfl | ⟨init, name, rfl⟩
    · exact absurd rfl hne
    · exact ⟨init, name, List.concat_eq_append⟩
  have hname := hparts name (by simp)
  have hinit : ∀ part ∈ parts, OutputName part := fun part hpart =>
    hparts part (List.mem_append_left _ hpart)
  rw [parentAndName_join (fun part hpart => (hinit part hpart).ne_nil) hname.slash]
  exact ⟨⟨parts, hinit, rfl⟩, hname⟩

/-- There is no separator at the end of such a path. -/
theorem OutputPath.trim {path : Text} (h : OutputPath path) :
    path.rdropWhile (· == '/') = path := by
  rw [List.rdropWhile_eq_self_iff]
  intro hne hlast
  obtain ⟨parts, hparts, rfl⟩ := h
  obtain ⟨parts, name, rfl⟩ : ∃ init name, parts = init ++ [name] := by
    rcases List.eq_nil_or_concat parts with rfl | ⟨init, name, rfl⟩
    · exact absurd rfl hne
    · exact ⟨init, name, List.concat_eq_append⟩
  have hname := hparts name (by simp)
  have hinit : ∀ part ∈ parts, part ≠ [] := fun part hpart =>
    (hparts part (List.mem_append_left _ hpart)).ne_nil
  obtain ⟨before, hbefore⟩ := exists_below (join parts)
  have heq : join (parts ++ [name]) = before ++ name := by
    rw [join_append_singleton hinit, hbefore]
  have hlast' : (before ++ name).getLast (heq ▸ hne) = '/' := by
    rw [← eq_of_beq hlast]
    exact List.getLast_congr _ _ heq.symm
  rw [List.getLast_append_of_ne_nil _ hname.ne_nil] at hlast'
  exact hname.slash (hlast' ▸ List.getLast_mem hname.ne_nil)

variable {T}

theorem OutputPath.caseKey (hT : KeepsAscii T) {path : Text} (h : OutputPath path) :
    OutputPath (T.caseKey path) := by
  obtain ⟨parts, hparts, rfl⟩ := h
  refine ⟨parts.map T.caseKey, fun part hpart => ?_, ?_⟩
  · obtain ⟨p, hp, rfl⟩ := List.mem_map.1 hpart
    exact (outputName_caseKey hT).2 (hparts p hp)
  · rw [T.caseKey_eq_map, join_map (T.downcaseChar_ascii (by decide))]
    exact congrArg join (List.map_congr_left fun p _ => (T.caseKey_eq_map p).symm)

/-! ## One name -/

namespace OutputPathAllocator

variable {a : OutputPathAllocator}

/-- The path of a directory key; the root has none. -/
def mappedKey (a : OutputPathAllocator) (key : Text) : Option Text :=
  if key.isEmpty then some [] else a.directories.lookup key

theorem mappedKey_of_ne_nil {key : Text} (h : key ≠ []) :
    a.mappedKey key = a.directories.lookup key := by
  rw [mappedKey, if_neg (by rwa [List.isEmpty_iff])]

/-- The numbers are tried until one is free. -/
theorem number_free (T : DowncaseTable) (a : OutputPathAllocator) (requested : Text)
    (isDirectory : Bool) (start : Nat) :
    ∃ n, start ≤ n ∧ T.caseKey (numberedPath requested isDirectory n) ∉ a.used ∧
      (∀ m, start ≤ m → m < n → T.caseKey (numberedPath requested isDirectory m) ∈ a.used) ∧
      firstFree a.used (fun n => T.caseKey (numberedPath requested isDirectory n)) start = n :=
  ⟨_, firstFree_le _ _ _, firstFree_free (caseKey_numberedPath_injective T requested isDirectory) _,
    fun _ hm hlt => mem_of_lt_firstFree hm hlt, rfl⟩

/-- What `allocate_name` does: a new path with the name or a number. -/
structure Named (T : DowncaseTable) (a a' : OutputPathAllocator) (parent path : Text) (name : Text)
    (isDirectory : Bool) : Prop where
  fresh : T.caseKey path ∉ a.used
  used : a'.used = T.caseKey path :: a.used
  directories : a'.directories = a.directories
  below : ∃ name', (name' = name ∨ ∃ n, name' = numberedText isDirectory name n) ∧
    path = below parent name'

theorem allocateName_named (T : DowncaseTable) (a : OutputPathAllocator) (parent : Text) {name : Text}
    (hname : '/' ∉ name) (isDirectory : Bool) :
    Named T a (a.allocateName T (Verifier.below parent name) isDirectory).1 parent
      (a.allocateName T (Verifier.below parent name) isDirectory).2 name isDirectory := by
  unfold allocateName
  simp only
  split_ifs with hused
  · obtain ⟨n, hn, hfree, -, heq⟩ := number_free T a (Verifier.below parent name) isDirectory
      ((a.nextNumbers.lookup (T.caseKey (Verifier.below parent name))).getD 1)
    rw [heq]
    exact ⟨hfree, rfl, rfl, _, .inr ⟨n, rfl⟩, numberedPath_below parent hname isDirectory n⟩
  · exact ⟨hused, rfl, rfl, name, .inl rfl, rfl⟩

theorem Named.slash {a' : OutputPathAllocator} {parent path name : Text} {isDirectory : Bool}
    (h : Named T a a' parent path name isDirectory) (hname : '/' ∉ name) :
    ∃ name', '/' ∉ name' ∧ path = Verifier.below parent name' := by
  obtain ⟨name', hcases, hpath⟩ := h.below
  refine ⟨name', ?_, hpath⟩
  rcases hcases with rfl | ⟨n, rfl⟩
  · exact hname
  · exact slash_notMem_numberedText hname isDirectory n

theorem Named.outputPath {a' : OutputPathAllocator} {parent path name : Text} {isDirectory : Bool}
    (h : Named T a a' parent path name isDirectory) (hparent : OutputPath parent)
    (hname : OutputName name) : OutputPath path := by
  obtain ⟨name', hcases, rfl⟩ := h.below
  rcases hcases with rfl | ⟨n, rfl⟩
  · exact hparent.below hname
  · exact hparent.below (hname.numbered isDirectory n)

/-! ## Directories -/

/-- What holds of a mapped directory: its path is in use, lies in the directory above, and is made
of usable names if the requested one is. -/
structure Entry (T : DowncaseTable) (a : OutputPathAllocator) (key mapped : Text) : Prop where
  ne_nil : key ≠ []
  used : T.caseKey mapped ∈ a.used
  under : ∃ parent name, a.mappedKey (parentAndName key).1 = some parent ∧ '/' ∉ name ∧
    mapped = Verifier.below parent name
  safe : OutputPath key → OutputPath mapped

def Sound (T : DowncaseTable) (a : OutputPathAllocator) : Prop :=
  ∀ key mapped, a.directories.lookup key = some mapped → Entry T a key mapped

theorem sound_init : Sound T {} := fun _ _ h => absurd h (by simp)

theorem Sound.safe (h : Sound T a) {key mapped : Text} (hkey : a.mappedKey key = some mapped)
    (hsafe : OutputPath key) : OutputPath mapped := by
  rw [mappedKey] at hkey
  split_ifs at hkey with hempty
  · rw [← Option.some.inj hkey]
    exact .nil
  · exact (h _ _ hkey).safe hsafe

/-- What later allocators keep: names in use, and the paths of directories; new directories have new
paths. -/
structure Extends (T : DowncaseTable) (a a' : OutputPathAllocator) : Prop where
  used : a.used ⊆ a'.used
  kept : ∀ key mapped, a.directories.lookup key = some mapped →
    a'.directories.lookup key = some mapped
  fresh : ∀ key mapped, a'.directories.lookup key = some mapped →
    a.directories.lookup key = some mapped ∨ T.caseKey mapped ∉ a.used

theorem Extends.refl (T : DowncaseTable) (a : OutputPathAllocator) : Extends T a a :=
  ⟨List.Subset.refl _, fun _ _ h => h, fun _ _ h => .inl h⟩

theorem Extends.trans {a' a'' : OutputPathAllocator} (h : Extends T a a') (h' : Extends T a' a'') :
    Extends T a a'' := by
  refine ⟨List.Subset.trans h.used h'.used, fun key mapped hk => h'.kept _ _ (h.kept _ _ hk), ?_⟩
  intro key mapped hk
  rcases h'.fresh key mapped hk with hk | hk
  · exact h.fresh key mapped hk
  · exact .inr fun hmem => hk (h.used hmem)

theorem Extends.mappedKey {a' : OutputPathAllocator} (h : Extends T a a') {key mapped : Text}
    (hkey : a.mappedKey key = some mapped) : a'.mappedKey key = some mapped := by
  rw [OutputPathAllocator.mappedKey] at hkey ⊢
  split_ifs at hkey ⊢ with hempty
  · exact hkey
  · exact h.kept _ _ hkey

theorem Named.extends {a' : OutputPathAllocator} {parent path name : Text} {isDirectory : Bool}
    (h : Named T a a' parent path name isDirectory) : Extends T a a' := by
  refine ⟨?_, fun key mapped hk => ?_, fun key mapped hk => ?_⟩
  · rw [h.used]
    exact List.subset_cons_self _ _
  · rwa [h.directories]
  · rw [h.directories] at hk
    exact .inl hk

def insert (a : OutputPathAllocator) (key path : Text) : OutputPathAllocator :=
  { a with directories := (key, path) :: a.directories }

theorem lookup_insert (a : OutputPathAllocator) (key path k : Text) :
    (a.insert key path).directories.lookup k =
      if k = key then some path else a.directories.lookup k := by
  show ((key, path) :: a.directories).lookup k = _
  rw [List.lookup_cons]
  by_cases h : k = key
  · rw [if_pos h, beq_iff_eq.2 h]
  · rw [if_neg h, beq_false_of_ne h]

/-- A new directory with a new path. -/
theorem Named.insert {a' : OutputPathAllocator} {parent path name key : Text} {isDirectory : Bool}
    (h : Named T a a' parent path name isDirectory) (hkey : a.directories.lookup key = none) :
    Extends T a (a'.insert key path) := by
  refine ⟨h.extends.used, fun k mapped hk => ?_, fun k mapped hk => ?_⟩
  · rw [lookup_insert, h.directories, if_neg]
    · exact hk
    · rintro rfl
      exact absurd (hkey.symm.trans hk) (by simp)
  · rw [lookup_insert, h.directories] at hk
    split_ifs at hk with heq
    · rw [← Option.some.inj hk]
      exact .inr h.fresh
    · exact .inl hk

theorem Entry.mono {a' : OutputPathAllocator} {key mapped : Text} (h : Entry T a key mapped)
    (hext : Extends T a a') : Entry T a' key mapped := by
  obtain ⟨parent, name, hparent, hname, heq⟩ := h.under
  exact ⟨h.ne_nil, hext.used h.used, ⟨parent, name, hext.mappedKey hparent, hname, heq⟩, h.safe⟩

/-- What `allocate_directory` does. -/
structure Mapped (T : DowncaseTable) (a a' : OutputPathAllocator) (cursor path : Text) : Prop where
  sound : Sound T a'
  extends_ : Extends T a a'
  mapped : a'.mappedKey (T.caseKey cursor) = some path
  longer : ∀ key : Text, cursor.length < key.length →
    a'.directories.lookup key = a.directories.lookup key

/-- One directory below a mapped one. -/
theorem Mapped.insert (hT : KeepsAscii T) {a₁ a₂ : OutputPathAllocator} {cursor parent path : Text}
    (hne : T.caseKey cursor ≠ [])
    (hparent : Mapped T a a₁ (parentAndName cursor).1 parent)
    (hnamed : Named T a₁ a₂ parent path (parentAndName cursor).2 true)
    (hnew : a₁.directories.lookup (T.caseKey cursor) = none)
    (hshorter : (parentAndName cursor).1.length < cursor.length) :
    Mapped T a (a₂.insert (T.caseKey cursor) path) cursor path := by
  have hext := hnamed.insert hnew
  refine ⟨fun key mapped hkey => ?_, hparent.extends_.trans hext, ?_, fun key hkey => ?_⟩
  · rw [lookup_insert, hnamed.directories] at hkey
    split_ifs at hkey with heq
    · obtain rfl := heq
      obtain rfl := Option.some.inj hkey
      have habove : a₁.mappedKey (parentAndName (T.caseKey cursor)).1 = some parent := by
        rw [parentAndName_caseKey]
        exact hparent.mapped
      obtain ⟨name, hname, hbelow⟩ := hnamed.slash (slash_notMem_name cursor)
      refine ⟨hne, ?_, ⟨parent, name, hext.mappedKey habove, hname, hbelow⟩, fun hsafe => ?_⟩
      · show T.caseKey path ∈ a₂.used
        rw [hnamed.used]
        exact List.mem_cons_self
      · obtain ⟨hsafe, hlast⟩ := hsafe.parentAndName hne
        rw [parentAndName_caseKey] at hlast
        exact hnamed.outputPath (hparent.sound.safe habove hsafe) ((outputName_caseKey hT).1 hlast)
    · exact (hparent.sound key mapped hkey).mono hext
  · rw [mappedKey_of_ne_nil hne, lookup_insert, if_pos rfl]
  · have hlen : (T.caseKey cursor).length = cursor.length := by
      rw [T.caseKey_eq_map, List.length_map]
    rw [lookup_insert, if_neg, hnamed.directories]
    · exact hparent.longer key (by omega)
    · rintro rfl
      omega

theorem allocateDirectoryFrom_mapped (hT : KeepsAscii T) (h : Sound T a) (cursor : Text) :
    Mapped T a (a.allocateDirectoryFrom T cursor).1 cursor
      (a.allocateDirectoryFrom T cursor).2 := by
  induction hlength : cursor.length using Nat.strong_induction_on generalizing cursor with
  | _ length ih =>
    subst hlength
    by_cases hempty : cursor.isEmpty = true
    · rw [allocateDirectoryFrom, dif_pos hempty]
      obtain rfl := List.isEmpty_iff.1 hempty
      exact ⟨h, .refl T a, rfl, fun _ _ => rfl⟩
    have hkey : T.caseKey cursor ≠ [] := by
      rw [T.caseKey_eq_map, ne_eq, List.map_eq_nil_iff, ← List.isEmpty_iff]
      exact hempty
    rw [allocateDirectoryFrom, dif_neg hempty]
    cases hlookup : a.directories.lookup (T.caseKey cursor) with
    | some mapped =>
      exact ⟨h, .refl T a, (mappedKey_of_ne_nil hkey).trans hlookup, fun _ _ => rfl⟩
    | none =>
      have hshorter := parentAndName_length hempty
      have hparent := ih _ hshorter _ rfl
      -- the key is longer than those of the directories above
      have hnew := hparent.longer (T.caseKey cursor)
        (by rw [T.caseKey_eq_map, List.length_map]; exact hshorter)
      exact .insert hT hkey hparent (allocateName_named T _ _ (slash_notMem_name cursor) true)
        (hnew.trans hlookup) hshorter

theorem allocateDirectory_mapped (hT : KeepsAscii T) (h : Sound T a) (requested : Text) :
    Mapped T a (a.allocateDirectory T requested).1 (requested.rdropWhile (· == '/'))
      (a.allocateDirectory T requested).2 :=
  allocateDirectoryFrom_mapped hT h _

/-! ## Files -/

/-- What `allocate` does: a new path in the directory above. -/
structure Filed (T : DowncaseTable) (a a' : OutputPathAllocator) (requested path : Text) : Prop where
  sound : Sound T a'
  extends_ : Extends T a a'
  fresh : T.caseKey path ∉ a.used
  used : T.caseKey path ∈ a'.used
  apart : ∀ key mapped, a'.directories.lookup key = some mapped → T.caseKey path ≠ T.caseKey mapped
  under : ∃ parent name, '/' ∉ name ∧ path = Verifier.below parent name ∧
    a'.mappedKey (T.caseKey ((parentAndName requested).1.rdropWhile (· == '/'))) = some parent
  safe : OutputPath requested → OutputPath path

theorem allocate_filed (hT : KeepsAscii T) (h : Sound T a) (requested : Text) :
    Filed T a (a.allocate T requested).1 requested (a.allocate T requested).2 := by
  have hmapped := allocateDirectory_mapped hT h (parentAndName requested).1
  unfold allocate
  have hslash := slash_notMem_name requested
  have hnamed := allocateName_named T (a.allocateDirectory T (parentAndName requested).1).1
    (a.allocateDirectory T (parentAndName requested).1).2 hslash false
  obtain ⟨name, hname, hbelow⟩ := hnamed.slash hslash
  refine ⟨fun key mapped hkey => ?_, hmapped.extends_.trans hnamed.extends, fun hmem => ?_, ?_,
    fun key mapped hkey heq => ?_, ?_, fun hsafe => ?_⟩
  · rw [hnamed.directories] at hkey
    exact (hmapped.sound key mapped hkey).mono hnamed.extends
  · exact hnamed.fresh (hmapped.extends_.used hmem)
  · rw [hnamed.used]
    exact List.mem_cons_self
  · -- the directories were in use before the file got its path
    rw [hnamed.directories] at hkey
    exact hnamed.fresh (heq ▸ (hmapped.sound key mapped hkey).used)
  · exact ⟨_, name, hname, hbelow, hnamed.extends.mappedKey hmapped.mapped⟩
  · by_cases hempty : requested = []
    · -- a file without a name, in the root, is its number at most
      subst hempty
      obtain ⟨name', hcases, hpath⟩ := hnamed.below
      have hroot : (a.allocateDirectory T (parentAndName []).1).2 = [] :=
        (Option.some.inj hmapped.mapped).symm
      rw [hpath, hroot]
      rcases hcases with rfl | ⟨n, rfl⟩
      · exact .nil
      · have hnumber : numberedText false [] n = number n := List.append_nil _
        exact OutputPath.nil.below (hnumber ▸ .number n)
    · obtain ⟨hparent, hlast⟩ := hsafe.parentAndName hempty
      refine hnamed.outputPath ?_ hlast
      have hkey := hmapped.mapped
      rw [hparent.trim] at hkey
      exact hmapped.sound.safe hkey (hparent.caseKey hT)

end OutputPathAllocator

/-! ## Sessions -/

inductive Call
  | project (raw : Text) (isDirectory : Bool)
  | allocate (requested : Text)
  | allocateDirectory (requested : Text)

namespace Call

/-- The name that the caller gives. -/
def name : Call → Text
  | .project raw _ => raw
  | .allocate requested => requested
  | .allocateDirectory requested => requested

def isDirectory : Call → Bool
  | .project _ isDirectory => isDirectory
  | .allocate _ => false
  | .allocateDirectory _ => true

/-- What `allocate` or `allocate_directory` is asked for. -/
def request : Call → Text
  | .project raw _ => windowsOutputRelativePath (cleanRelativeArchivePath raw)
  | .allocate requested => requested
  | .allocateDirectory requested => requested

/-- The directory of which a path in it is asked for. -/
def above (c : Call) : Text :=
  if c.isDirectory then (parentAndName (c.request.rdropWhile (· == '/'))).1
  else (parentAndName c.request).1.rdropWhile (· == '/')

/-- The root is asked for. -/
def IsRoot (c : Call) : Prop := c.isDirectory = true ∧ c.request.rdropWhile (· == '/') = []

end Call

/-- An allocator, and the calls so far with the paths they returned. -/
structure Session where
  allocator : OutputPathAllocator
  answers : List (Call × Text)

variable (T)

def Session.call (s : Session) (c : Call) : OutputPathAllocator × Text :=
  match c with
  | .project raw isDirectory => s.allocator.project T raw isDirectory
  | .allocate requested => s.allocator.allocate T requested
  | .allocateDirectory requested => s.allocator.allocateDirectory T requested

/-- The names are safe: an unsafe one is not allocated. -/
def session : Machine Session Call where
  init := ⟨{}, []⟩
  step s c :=
    if unsafeArchivePath c.name then none
    else some ⟨(s.call T c).1, s.answers ++ [(c, (s.call T c).2)]⟩

/-- The keys of the paths of files. -/
def Session.fileKeys (s : Session) : List Text :=
  (s.answers.filter fun answer => !answer.1.isDirectory).map fun answer => T.caseKey answer.2

/-- A safe name is projected to what its request gets. -/
theorem Session.call_eq (s : Session) {c : Call} (h : unsafeArchivePath c.name = false) :
    s.call T c = if c.isDirectory then s.allocator.allocateDirectory T c.request
      else s.allocator.allocate T c.request := by
  cases c with
  | project raw isDirectory =>
    show s.allocator.project T raw isDirectory = _
    have hraw : unsafeArchivePath raw = false := h
    rw [OutputPathAllocator.project, hraw]
    rfl
  | allocate requested => rfl
  | allocateDirectory requested => rfl

/-- What a projection asks for is made of usable names. -/
theorem outputPath_request (raw : Text) :
    OutputPath (windowsOutputRelativePath (cleanRelativeArchivePath raw)) := by
  rw [windowsOutputRelativePath_eq]
  refine ⟨_, fun part hpart => ?_, rfl⟩
  obtain ⟨p, hp, rfl⟩ := List.mem_map.1 hpart
  exact .of_part (archiveParts_ne_nil hp) (slash_notMem_archiveParts hp)

/-! ## What every session keeps -/

variable {T}

/-- The directory above is mapped, and the path is in it. -/
def Under (T : DowncaseTable) (a : OutputPathAllocator) (above path : Text) : Prop :=
  ∃ parent name, '/' ∉ name ∧ path = below parent name ∧ a.mappedKey (T.caseKey above) = some parent

theorem Under.mono {a a' : OutputPathAllocator} {above path : Text} (h : Under T a above path)
    (hext : a.Extends T a') : Under T a' above path := by
  obtain ⟨parent, name, hname, hpath, hparent⟩ := h
  exact ⟨parent, name, hname, hpath, hext.mappedKey hparent⟩

structure Holds (T : DowncaseTable) (s : Session) : Prop where
  sound : s.allocator.Sound T
  used : ∀ key ∈ s.fileKeys T, key ∈ s.allocator.used
  files : (s.fileKeys T).Nodup
  apart : ∀ key ∈ s.fileKeys T, ∀ k mapped,
    s.allocator.directories.lookup k = some mapped → key ≠ T.caseKey mapped
  mapped : ∀ answer ∈ s.answers, answer.1.isDirectory = true →
    s.allocator.mappedKey (T.caseKey (answer.1.request.rdropWhile (· == '/'))) = some answer.2
  under : ∀ answer ∈ s.answers, answer.1.isDirectory = false →
    Under T s.allocator answer.1.above answer.2
  safe : ∀ answer ∈ s.answers, OutputPath answer.1.request → OutputPath answer.2

theorem Holds.init : Holds T (session T).init where
  sound := OutputPathAllocator.sound_init
  used _ h := absurd h List.not_mem_nil
  files := List.nodup_nil
  apart _ h := absurd h List.not_mem_nil
  mapped _ h := absurd h List.not_mem_nil
  under _ h := absurd h List.not_mem_nil
  safe _ h := absurd h List.not_mem_nil

theorem Session.fileKeys_append (s : Session) (a : OutputPathAllocator) (c : Call) (path : Text) :
    Session.fileKeys T ⟨a, s.answers ++ [(c, path)]⟩ =
      s.fileKeys T ++ if c.isDirectory then [] else [T.caseKey path] := by
  rw [fileKeys, fileKeys, List.filter_append, List.map_append]
  cases h : c.isDirectory <;> simp [h]

/-- Directories that were new to an allocator are not where its files are. -/
theorem Holds.apart_of_extends {s : Session} (h : Holds T s) {a : OutputPathAllocator}
    (hext : s.allocator.Extends T a) {key k mapped : Text} (hkey : key ∈ s.fileKeys T)
    (hmapped : a.directories.lookup k = some mapped) : key ≠ T.caseKey mapped := by
  rcases hext.fresh k mapped hmapped with hold | hnew
  · exact h.apart key hkey k mapped hold
  · rintro rfl
    exact hnew (h.used _ hkey)

theorem Holds.directory (hT : KeepsAscii T) {s : Session} (h : Holds T s) {c : Call}
    (hc : c.isDirectory = true) :
    Holds T ⟨(s.allocator.allocateDirectory T c.request).1,
      s.answers ++ [(c, (s.allocator.allocateDirectory T c.request).2)]⟩ := by
  have hdir := OutputPathAllocator.allocateDirectory_mapped hT h.sound c.request
  have hkeys := s.fileKeys_append (T := T) (s.allocator.allocateDirectory T c.request).1 c
    (s.allocator.allocateDirectory T c.request).2
  rw [hc, if_pos rfl, List.append_nil] at hkeys
  refine ⟨hdir.sound, ?_, hkeys ▸ h.files, ?_, ?_, ?_, ?_⟩
  · rw [hkeys]
    exact fun key hkey => hdir.extends_.used (h.used key hkey)
  · rw [hkeys]
    exact fun key hkey k mapped hk => h.apart_of_extends hdir.extends_ hkey hk
  · intro answer hanswer hisdir
    rcases List.mem_append.1 hanswer with hanswer | hanswer
    · exact hdir.extends_.mappedKey (h.mapped answer hanswer hisdir)
    · rw [List.mem_singleton.1 hanswer]
      exact hdir.mapped
  · intro answer hanswer hisdir
    rcases List.mem_append.1 hanswer with hanswer | hanswer
    · exact (h.under answer hanswer hisdir).mono hdir.extends_
    · rw [List.mem_singleton.1 hanswer] at hisdir
      exact absurd (hc.symm.trans hisdir) (by simp)
  · intro answer hanswer hsafe
    rcases List.mem_append.1 hanswer with hanswer | hanswer
    · exact h.safe answer hanswer hsafe
    · rw [List.mem_singleton.1 hanswer] at hsafe ⊢
      have hmapped := hdir.mapped
      rw [hsafe.trim] at hmapped
      exact hdir.sound.safe hmapped (hsafe.caseKey hT)

theorem Holds.file (hT : KeepsAscii T) {s : Session} (h : Holds T s) {c : Call}
    (hc : c.isDirectory = false) :
    Holds T ⟨(s.allocator.allocate T c.request).1,
      s.answers ++ [(c, (s.allocator.allocate T c.request).2)]⟩ := by
  have hfile := OutputPathAllocator.allocate_filed hT h.sound c.request
  have hkeys := s.fileKeys_append (T := T) (s.allocator.allocate T c.request).1 c
    (s.allocator.allocate T c.request).2
  rw [hc, if_neg Bool.false_ne_true] at hkeys
  refine ⟨hfile.sound, ?_, ?_, ?_, ?_, ?_, ?_⟩
  · rw [hkeys]
    intro key hkey
    rcases List.mem_append.1 hkey with hkey | hkey
    · exact hfile.extends_.used (h.used key hkey)
    · rw [List.mem_singleton.1 hkey]
      exact hfile.used
  · rw [hkeys, List.nodup_append]
    refine ⟨h.files, List.nodup_singleton _, fun key hkey key' hkey' heq => ?_⟩
    rw [List.mem_singleton.1 hkey'] at heq
    exact hfile.fresh (heq ▸ h.used key hkey)
  · rw [hkeys]
    intro key hkey k mapped hk
    rcases List.mem_append.1 hkey with hkey | hkey
    · exact h.apart_of_extends hfile.extends_ hkey hk
    · rw [List.mem_singleton.1 hkey]
      exact hfile.apart k mapped hk
  · intro answer hanswer hisdir
    rcases List.mem_append.1 hanswer with hanswer | hanswer
    · exact hfile.extends_.mappedKey (h.mapped answer hanswer hisdir)
    · rw [List.mem_singleton.1 hanswer] at hisdir
      exact absurd (hc.symm.trans hisdir) (by simp)
  · intro answer hanswer hisdir
    rcases List.mem_append.1 hanswer with hanswer | hanswer
    · exact (h.under answer hanswer hisdir).mono hfile.extends_
    · rw [List.mem_singleton.1 hanswer, Call.above, hc, if_neg Bool.false_ne_true]
      exact hfile.under
  · intro answer hanswer hsafe
    rcases List.mem_append.1 hanswer with hanswer | hanswer
    · exact h.safe answer hanswer hsafe
    · rw [List.mem_singleton.1 hanswer] at hsafe ⊢
      exact hfile.safe hsafe

theorem Holds.step (hT : KeepsAscii T) (s : Session) (c : Call) (s' : Session) (h : Holds T s)
    (hs : (session T).step s c = some s') : Holds T s' := by
  unfold session at hs
  simp only at hs
  split_ifs at hs with hname
  obtain rfl := Option.some.inj hs
  rw [s.call_eq T (Bool.eq_false_iff.2 hname)]
  cases hc : c.isDirectory with
  | true => exact h.directory hT hc
  | false => exact h.file hT hc

/-! ## Names that are equal up to case -/

theorem keepsPart_caseKey (hT : KeepsAscii T) (part : Text) :
    keepsPart (T.caseKey part) = keepsPart part := by
  have hdot (c : Char) : T.downcaseChar c = '.' ↔ c = '.' := by
    have h := test_downcase hT (P := (· == '.'.toNat)) (beq_code_fixed (by decide)) c
    rw [Bool.eq_iff_iff, beq_iff_eq, beq_iff_eq, Char.toNat_inj, Char.toNat_inj] at h
    exact h
  have hnil : part.map T.downcaseChar = [] ↔ part = [] := List.map_eq_nil_iff
  have hone : part.map T.downcaseChar = ['.'] ↔ part = ['.'] := by
    rw [List.map_eq_singleton_iff]
    simp only [hdot, exists_eq_right]
  have htwo : part.map T.downcaseChar = ['.', '.'] ↔ part = ['.', '.'] := by
    rw [List.map_eq_cons_iff]
    simp only [List.map_eq_singleton_iff, hdot]
    constructor
    · rintro ⟨c, l, rfl, rfl, d, rfl, rfl⟩
      rfl
    · rintro rfl
      exact ⟨_, _, rfl, rfl, _, rfl, rfl⟩
  rw [T.caseKey_eq_map, Bool.eq_iff_iff]
  simp only [keepsPart, Bool.and_eq_true, bne_iff_ne, ne_eq, hnil, hone, htwo]

theorem archiveParts_caseKey (hT : KeepsAscii T) (raw : Text) :
    archiveParts (T.caseKey raw) = (archiveParts raw).map T.caseKey := by
  have hsplit : (T.caseKey raw).splitOnP isSeparator = (raw.splitOnP isSeparator).map T.caseKey := by
    have h := (compat_downcase hT isSeparatorCode_fixed).splitOnP raw
    rw [← caseKey_eq_encode] at h
    exact h.trans (List.map_congr_left fun part _ => (caseKey_eq_encode part).symm)
  rw [archiveParts, archiveParts, hsplit, List.filter_map]
  congr 1
  exact List.filter_congr fun part _ => keepsPart_caseKey hT part

/-- Equal names are requests for equal paths. -/
theorem caseKey_request (hT : KeepsAscii T) (raw : Text) :
    T.caseKey (windowsOutputRelativePath (cleanRelativeArchivePath raw)) =
      windowsOutputRelativePath (cleanRelativeArchivePath (T.caseKey raw)) := by
  rw [windowsOutputRelativePath_eq, windowsOutputRelativePath_eq, archiveParts_caseKey hT,
    T.caseKey_eq_map, join_map (T.downcaseChar_ascii (by decide)), List.map_map, List.map_map]
  refine congrArg join (List.map_congr_left fun part _ => ?_)
  exact (T.caseKey_eq_map _).symm.trans (caseKey_windowsOutputPart hT part)

/-! ## Mapping twice -/

theorem windowsOutputPart_not_needsMapping {part : Text} (hslash : '/' ∉ part) :
    windowsOutputPartNeedsMapping (windowsOutputPart part) = false := by
  by_cases h : part = []
  · rw [h]
    decide
  · exact (OutputName.of_part h hslash).not_needsMapping

theorem windowsOutputRelativePath_idem (cleaned : Text) :
    windowsOutputRelativePath (windowsOutputRelativePath cleaned) =
      windowsOutputRelativePath cleaned := by
  by_cases h : (cleaned.splitOn '/').any windowsOutputPartNeedsMapping = true
  · have hmapped : windowsOutputRelativePath cleaned =
        join ((cleaned.splitOn '/').map windowsOutputPart) := by
      rw [windowsOutputRelativePath, h]
      rfl
    have hslash : ∀ part ∈ (cleaned.splitOn '/').map windowsOutputPart, '/' ∉ part := by
      intro part hpart hmem
      obtain ⟨p, hp, rfl⟩ := List.mem_map.1 hpart
      rcases mem_safePathPart hmem with heq | hmem
      · exact absurd heq (by decide)
      · exact absurd (forall_of_mem_splitOnP hp _ hmem) (by simp)
    have hsplit : (join ((cleaned.splitOn '/').map windowsOutputPart)).splitOn '/' =
        (cleaned.splitOn '/').map windowsOutputPart :=
      List.splitOn_intercalate '/' hslash (by simp)
    have hnone : ((cleaned.splitOn '/').map windowsOutputPart).any
        windowsOutputPartNeedsMapping = false := by
      rw [List.any_eq_false]
      intro part hpart
      obtain ⟨p, hp, rfl⟩ := List.mem_map.1 hpart
      rw [windowsOutputPart_not_needsMapping]
      · simp
      · exact fun hmem => absurd (forall_of_mem_splitOnP hp _ hmem) (by simp)
    rw [hmapped, windowsOutputRelativePath, hsplit, hnone]
    rfl
  · have hsame : windowsOutputRelativePath cleaned = cleaned := by
      rw [windowsOutputRelativePath, Bool.eq_false_iff.2 h]
      rfl
    rw [hsame, hsame]

/-! ## Every session -/

/-- What the calls of a session got. -/
structure PathsRight (T : DowncaseTable) (s : Session) : Prop where
  /-- Files have different paths, and no path of a mapped directory. -/
  files : (s.fileKeys T).Nodup
  apart : ∀ key ∈ s.fileKeys T, ∀ k mapped,
    s.allocator.directories.lookup k = some mapped → key ≠ T.caseKey mapped
  /-- Equal requests for directories got one path, also by names of archive items. -/
  directories : ∀ answer ∈ s.answers, ∀ answer' ∈ s.answers, answer.1.isDirectory = true →
    answer'.1.isDirectory = true → T.caseKey answer.1.request = T.caseKey answer'.1.request →
    answer.2 = answer'.2
  names : ∀ raw raw' path path', (.project raw true, path) ∈ s.answers →
    (.project raw' true, path') ∈ s.answers → T.caseKey raw = T.caseKey raw' → path = path'
  /-- The path is in the directory above. -/
  under : ∀ answer ∈ s.answers, (answer.1.IsRoot ∧ answer.2 = []) ∨
    Under T s.allocator answer.1.above answer.2
  /-- The search for a number ends. -/
  numbers : ∀ requested isDirectory start, ∃ n, start ≤ n ∧
    T.caseKey (numberedPath requested isDirectory n) ∉ s.allocator.used ∧
    (∀ m, start ≤ m → m < n →
      T.caseKey (numberedPath requested isDirectory m) ∈ s.allocator.used) ∧
    firstFree s.allocator.used (fun n => T.caseKey (numberedPath requested isDirectory n)) start = n
  /-- Projected names are made of names that Windows keeps. -/
  safe : ∀ raw isDirectory path, (.project raw isDirectory, path) ∈ s.answers → OutputPath path

theorem Holds.under_directory {s : Session} (h : Holds T s) {answer : Call × Text}
    (hanswer : answer ∈ s.answers) (hisdir : answer.1.isDirectory = true) :
    (answer.1.IsRoot ∧ answer.2 = []) ∨ Under T s.allocator answer.1.above answer.2 := by
  have hmapped := h.mapped answer hanswer hisdir
  by_cases hroot : answer.1.request.rdropWhile (· == '/') = []
  · rw [hroot] at hmapped
    exact .inl ⟨⟨hisdir, hroot⟩, (Option.some.inj hmapped).symm⟩
  · have hkey : T.caseKey (answer.1.request.rdropWhile (· == '/')) ≠ [] := by
      rwa [T.caseKey_eq_map, ne_eq, List.map_eq_nil_iff]
    rw [OutputPathAllocator.mappedKey_of_ne_nil hkey] at hmapped
    obtain ⟨parent, name, hparent, hname, hpath⟩ := (h.sound _ _ hmapped).under
    rw [parentAndName_caseKey] at hparent
    refine .inr ⟨parent, name, hname, hpath, ?_⟩
    rw [Call.above, hisdir, if_pos rfl]
    exact hparent

theorem Holds.pathsRight (hT : KeepsAscii T) {s : Session} (h : Holds T s) : PathsRight T s := by
  have hequal : ∀ answer ∈ s.answers, ∀ answer' ∈ s.answers, answer.1.isDirectory = true →
      answer'.1.isDirectory = true → T.caseKey answer.1.request = T.caseKey answer'.1.request →
      answer.2 = answer'.2 := by
    intro answer hanswer answer' hanswer' hisdir hisdir' heq
    have hmapped := h.mapped answer hanswer hisdir
    have hmapped' := h.mapped answer' hanswer' hisdir'
    rw [caseKey_trim, heq, ← caseKey_trim] at hmapped
    exact Option.some.inj (hmapped.symm.trans hmapped')
  refine ⟨h.files, h.apart, hequal, ?_, fun answer hanswer => ?_,
    OutputPathAllocator.number_free T s.allocator, ?_⟩
  · intro raw raw' path path' hanswer hanswer' heq
    refine hequal _ hanswer _ hanswer' rfl rfl ?_
    show T.caseKey (windowsOutputRelativePath (cleanRelativeArchivePath raw)) =
      T.caseKey (windowsOutputRelativePath (cleanRelativeArchivePath raw'))
    rw [caseKey_request hT, caseKey_request hT, heq]
  · cases hisdir : answer.1.isDirectory with
    | true => exact h.under_directory hanswer hisdir
    | false => exact .inr (h.under answer hanswer hisdir)
  · intro raw isDirectory path hanswer
    exact h.safe _ hanswer (outputPath_request raw)

/-- Whatever the calls with safe names are, the paths are right; and mapping a path twice is mapping
it once. -/
theorem session_pathsRight (hT : KeepsAscii T) :
    (∀ s, (session T).Reachable s → PathsRight T s) ∧
      ∀ cleaned, windowsOutputRelativePath (windowsOutputRelativePath cleaned) =
        windowsOutputRelativePath cleaned :=
  ⟨fun _ h => (h.invariant Holds.init (Holds.step hT)).pathsRight hT, windowsOutputRelativePath_idem⟩

/-- A system without Unicode case mapping. -/
theorem keepsAscii_asciiOnly : KeepsAscii .asciiOnly := by
  intro u hu hlt
  have hsame : DowncaseTable.asciiOnly.unit u = u := if_neg (by omega)
  rw [hsame] at hlt
  omega

theorem session_pathsRight_asciiOnly :
    (∀ s, (session .asciiOnly).Reachable s → PathsRight .asciiOnly s) ∧
      ∀ cleaned, windowsOutputRelativePath (windowsOutputRelativePath cleaned) =
        windowsOutputRelativePath cleaned :=
  session_pathsRight keepsAscii_asciiOnly

/-- The directory `CON` is asked for, a file of its name after that, and the directory again. -/
example : ((session .asciiOnly).exec (session .asciiOnly).init
    [.project "CON/".toList true, .project "_con".toList false,
      .project "con".toList true]).map (fun s => s.answers.map (·.2)) =
      some ["_CON".toList, "_con(1)".toList, "_CON".toList] := by
  decide +kernel

end Sunpack.OutputPaths.Verifier
