import Sunpack.OutputPaths.Projection

/-!
# Agreement on output paths

The verifier's projection gives every item of an archive the path that the worker extracted it to,
over whole archives, and it calls unsafe what the worker refuses.
-/

namespace Sunpack.OutputPaths

open Lib

structure ArchiveItem where
  name : Text
  isDirectory : Bool

namespace Worker

variable (T : DowncaseTable)

/-- The part of `GetStream` that chooses the path of an item below the output root. -/
def outputPath (disk : Disk WString) (a : OutputPathAllocator WString WString) (name : WString)
    (isDirectory : Bool) : Option (OutputPathAllocator WString WString × List WString) :=
  -- entries that denote the output root are ignored
  if isDirectory && isRootName name then some (a, [])
  else (safeRelativeItemPath name).map fun requested =>
    a.allocate (wideNaming T) disk true requested isDirectory

def accepts (name : WString) (isDirectory : Bool) : Bool :=
  (safeRelativeItemPath name).isSome || (isDirectory && isRootName name)

/-- What exists below a root that was empty: allocated paths, as far as they have been created. -/
def created (present : List WString → Option Bool) (a : OutputPathAllocator WString WString) :
    Disk WString :=
  a.used.filterMap fun key => (present key).map (key, ·)

/-- The root-relative paths of the items, extracted in order. `present n` says what the asynchronous
writer has created of the allocated paths when item `n` is reached. -/
def outputPaths (present : Nat → List WString → Option Bool)
    (a : OutputPathAllocator WString WString) :
    List (WString × Bool) → Option (List (List WString))
  | [] => some []
  | (name, isDirectory) :: items => do
    let (a, path) ← outputPath T (created (present 0) a) a name isDirectory
    let paths ← outputPaths (fun n => present (n + 1)) a items
    some (path :: paths)

/-- `generic_wstring`. -/
def genericWString (path : List WString) : WString := [wide '/'].intercalate path

/-- A part goes above its directory. -/
def traverses (name : WString) : Bool := (pathElements name).any (· == [wide '.', wide '.'])

end Worker

/-- The verifier's paths of the items, in the order of the archive. -/
def Verifier.projectAll (T : DowncaseTable) (a : Verifier.OutputPathAllocator) :
    List ArchiveItem → List Text
  | [] => []
  | item :: items =>
    let (a, path) := a.project T item.name item.isDirectory
    path :: projectAll T a items

/-! ## Requests as file names -/

theorem mem_safePathPart {α : Type} {invalid trailing : α → Bool} {underscore : α}
    {reserved : List α → Bool} {part : List α} {c : α}
    (h : c ∈ safePathPart invalid trailing underscore reserved part) : c = underscore ∨ c ∈ part := by
  have hmapped {c : α} (h : c ∈ part.map fun value => if invalid value then underscore else value) :
      c = underscore ∨ c ∈ part := by
    obtain ⟨d, hd, rfl⟩ := List.mem_map.1 h
    split_ifs
    · exact .inl rfl
    · exact .inr hd
  have hkept {mapped : List α} {n : Nat} (hmapped : ∀ c ∈ mapped, c = underscore ∨ c ∈ part)
      (h : c ∈ mapped.rdropWhile trailing ++ List.replicate n underscore) :
      c = underscore ∨ c ∈ part := by
    rcases List.mem_append.1 h with h | h
    · exact hmapped c ((List.rdropWhile_prefix trailing _).subset h)
    · exact .inl (List.eq_of_mem_replicate h)
  simp only [safePathPart] at h
  split_ifs at h
  · rcases List.mem_cons.1 h with h | h
    · exact .inl h
    · exact hkept (fun c hc => hmapped hc) h
  · exact hkept (fun c hc => hmapped hc) h

theorem safePathPart_ne_nil {α : Type} {invalid trailing : α → Bool} {underscore : α}
    {reserved : List α → Bool} {part : List α} (h : part ≠ []) :
    safePathPart invalid trailing underscore reserved part ≠ [] := by
  simp only [safePathPart]
  split_ifs
  · exact List.cons_ne_nil _ _
  · rw [← List.length_pos_iff, List.length_append, List.length_replicate]
    have hlen : 0 < (part.map fun value => if invalid value then underscore else value).length := by
      rw [List.length_map]
      exact List.length_pos_iff.2 h
    omega

/-- A safe part does not end with a trailing character. -/
theorem safePathPart_last {α : Type} {invalid trailing : α → Bool} {underscore : α}
    {reserved : List α → Bool} {part before : List α} {c : α} (htrailing : trailing underscore = false)
    (h : safePathPart invalid trailing underscore reserved part = before ++ [c]) :
    trailing c = false := by
  have hend {mapped before : List α} {n : Nat}
      (h : mapped.rdropWhile trailing ++ List.replicate n underscore = before ++ [c]) :
      trailing c = false := by
    cases n with
    | zero =>
      rw [List.replicate_zero, List.append_nil] at h
      have hlast := List.rdropWhile_last_not trailing mapped (by simp [h])
      simp only [h, List.getLast_append_singleton] at hlast
      simpa using hlast
    | succ n =>
      rw [List.replicate_succ', ← List.append_assoc] at h
      obtain ⟨_, heq⟩ := List.append_inj' h rfl
      rw [← List.singleton_inj.1 heq, htrailing]
  simp only [safePathPart] at h
  split_ifs at h
  · cases before with
    | nil =>
      obtain ⟨rfl, _⟩ := List.cons.inj h
      exact htrailing
    | cons b before =>
      rw [List.cons_append, List.cons.injEq] at h
      exact hend h.2
  · exact hend h

/-- The name that a part of an archive path becomes. -/
def FileName.ofPart (part : Text) (h : part ≠ []) (hslash : '/' ∉ part) : FileName where
  text := Verifier.windowsOutputPart part
  ne_nil := safePathPart_ne_nil h
  slash := by
    intro hmem
    rcases mem_safePathPart hmem with heq | hmem
    · exact absurd heq (by decide)
    · exact hslash hmem
  dots := by
    intro heq
    have happ : Verifier.windowsOutputPart part = ['.'] ++ ['.'] := heq
    rw [Verifier.windowsOutputPart] at happ
    exact absurd (safePathPart_last (by decide) happ) (by decide)

theorem archiveParts_ne_nil {name part : Text} (h : part ∈ archiveParts name) : part ≠ [] := by
  have hkeep := (List.mem_filter.1 h).2
  simp only [Verifier.keepsPart, Bool.and_eq_true, bne_iff_ne] at hkeep
  exact hkeep.1.1

/-- The path that a name requests. -/
def request (name : Text) : List FileName :=
  (archiveParts name).attach.map fun part =>
    FileName.ofPart part.1 (archiveParts_ne_nil part.2) (slash_notMem_archiveParts part.2)

theorem request_map {β : Type} (name : Text) (f : Text → β) :
    (request name).map (fun x => f x.text) =
      (archiveParts name).map fun part => f (Verifier.windowsOutputPart part) := by
  calc (request name).map (fun x => f x.text)
      = ((archiveParts name).attach.map Subtype.val).map
          fun part => f (Verifier.windowsOutputPart part) := by
        rw [request, List.map_map, List.map_map]
        rfl
    _ = _ := by rw [List.attach_map_subtype_val]

/-! ## Archives -/

/-- The worker's path of an accepted name. -/
theorem safeRelativeItemPath_eq_some {name : Text} {requested : List WString}
    (h : Worker.safeRelativeItemPath (utf16 name) = some requested) :
    Verifier.unsafeArchivePath name = false ∧ request name ≠ [] ∧
      requested = (request name).map fun x => utf16 x.text := by
  rw [safeRelativeItemPath_utf16] at h
  split_ifs at h with hrefused
  rw [Bool.or_eq_true, not_or, Bool.not_eq_true, Bool.not_eq_true] at hrefused
  refine ⟨hrefused.1, fun hnil => ?_, ?_⟩
  · have hparts : archiveParts name ≠ [] := by
      rintro heq
      simp [heq] at hrefused
    rw [request, List.map_eq_nil_iff, List.attach_eq_nil_iff] at hnil
    exact hparts hnil
  · rw [request_map name utf16, ← Option.some.inj h]

theorem windowsOutputRelativePath_request (name : Text) :
    Verifier.windowsOutputRelativePath (Verifier.cleanRelativeArchivePath name) =
      joinPath (request name) := by
  have hmap := request_map name id
  simp only [id] at hmap
  rw [windowsOutputRelativePath_eq, joinPath, hmap]

/-- A directory item that denotes the root. -/
theorem isRootName_utf16 {name : Text} (h : Worker.isRootName (utf16 name) = true) :
    Verifier.unsafeArchivePath name = false ∧ archiveParts name = [] := by
  have heq : name = ['.'] ∨ name = ['.', '/'] ∨ name = ['.', '\\'] := by
    have hdot : [wide '.'] = utf16 ['.'] := rfl
    have hslash : [wide '.', wide '/'] = utf16 ['.', '/'] := rfl
    have hback : [wide '.', wide '\\'] = utf16 ['.', '\\'] := rfl
    rw [Worker.isRootName, hdot, hslash, hback, utf16_beq, utf16_beq, utf16_beq, Bool.or_eq_true,
      Bool.or_eq_true, beq_iff_eq, beq_iff_eq, beq_iff_eq, or_assoc] at h
    exact h
  rcases heq with rfl | rfl | rfl
  · decide
  · decide
  · decide

theorem created_covers (present : List WString → Option Bool)
    (a : OutputPathAllocator WString WString) : a.Covers (Worker.created present a) := by
  intro entry h
  obtain ⟨key, hkey, heq⟩ := List.mem_filterMap.1 h
  obtain ⟨d, _, rfl⟩ := Option.map_eq_some_iff.1 heq
  exact hkey

theorem utf16_joinPath (path : List FileName) :
    utf16 (joinPath path) = Worker.genericWString (path.map fun x => utf16 x.text) := by
  have hslash : encode utf16EncodeChar ['/'] = [wide '/'] := rfl
  rw [utf16, joinPath, Verifier.join, encode_intercalate, hslash, List.map_map,
    Worker.genericWString]
  rfl

/-- One item: both sides start from the same allocator and give the same path. -/
theorem outputPath_project (T : DowncaseTable) (present : List WString → Option Bool)
    (a : OutputPathAllocator FileName FileKey) (item : ArchiveItem)
    (h : Worker.accepts (utf16 item.name) item.isDirectory = true) : ∃ a' path,
      Worker.outputPath T (Worker.created present (a.rename (wideRenaming T)))
        (a.rename (wideRenaming T)) (utf16 item.name) item.isDirectory =
          some (OutputPathAllocator.rename (wideRenaming T) a', path.map fun x => utf16 x.text) ∧
      a.projection.project T item.name item.isDirectory = (a'.projection, joinPath path) := by
  obtain ⟨name, isDirectory⟩ := item
  rw [Worker.outputPath, Verifier.OutputPathAllocator.project, windowsOutputRelativePath_request]
  by_cases hroot : (isDirectory && Worker.isRootName (utf16 name)) = true
  · rw [Bool.and_eq_true] at hroot
    obtain ⟨hsafe, hparts⟩ := isRootName_utf16 hroot.2
    have hrequest : request name = [] := by
      rw [request, List.map_eq_nil_iff, List.attach_eq_nil_iff, hparts]
    refine ⟨a, [], by rw [hroot.1, hroot.2]; rfl, ?_⟩
    rw [hsafe, hrequest, hroot.1, if_neg Bool.false_ne_true]
    simp only [if_true]
    exact OutputPathAllocator.projection_directory T a []
  · rw [Worker.accepts, Bool.or_eq_true, Option.isSome_iff_exists, or_iff_left hroot] at h
    obtain ⟨requested, hrequested⟩ := h
    obtain ⟨hsafe, hne, rfl⟩ := safeRelativeItemPath_eq_some hrequested
    have hworker := OutputPathAllocator.allocate_rename (wideRenaming T)
      (OutputPathAllocator.covers_nil a)
      (created_covers present (a.rename (wideRenaming T))) (request name) isDirectory
    rw [if_neg hroot, hrequested, Option.map_some]
    refine ⟨_, _, congrArg some hworker, ?_⟩
    rw [hsafe, if_neg Bool.false_ne_true]
    cases isDirectory with
    | true => exact OutputPathAllocator.projection_directory T a (request name)
    | false => exact OutputPathAllocator.projection_allocate T a hne

theorem outputPaths_projectAll (T : DowncaseTable) (present : Nat → List WString → Option Bool)
    (a : OutputPathAllocator FileName FileKey) (items : List ArchiveItem)
    (h : ∀ item ∈ items, Worker.accepts (utf16 item.name) item.isDirectory = true) :
    ∃ paths, Worker.outputPaths T present (a.rename (wideRenaming T))
        (items.map fun item => (utf16 item.name, item.isDirectory)) = some paths ∧
      paths.map Worker.genericWString =
        (Verifier.projectAll T a.projection items).map utf16 := by
  induction items generalizing a present with
  | nil => exact ⟨[], rfl, rfl⟩
  | cons item items ih =>
    obtain ⟨a', path, hworker, hverifier⟩ :=
      outputPath_project T (present 0) a item (h item List.mem_cons_self)
    obtain ⟨paths, hpaths, heq⟩ := ih (fun n => present (n + 1)) a' fun i hi =>
      h i (List.mem_cons_of_mem _ hi)
    refine ⟨(path.map fun x => utf16 x.text) :: paths, ?_, ?_⟩
    · rw [List.map_cons, Worker.outputPaths, hworker]
      simp only [Option.bind_eq_bind, Option.bind_some, hpaths]
    · rw [Verifier.projectAll, hverifier, List.map_cons, List.map_cons, heq, utf16_joinPath]

/-- The verifier's projection of an archive is the list of the paths that the worker extracted its
items to, and a name that goes to another root or above its directory is unsafe. -/
theorem projection_agrees (T : DowncaseTable) (present : Nat → List WString → Option Bool)
    (items : List ArchiveItem)
    (h : ∀ item ∈ items, Worker.accepts (utf16 item.name) item.isDirectory = true) :
    (∃ paths, Worker.outputPaths T present {}
        (items.map fun item => (utf16 item.name, item.isDirectory)) = some paths ∧
      paths.map Worker.genericWString = (Verifier.projectAll T {} items).map utf16) ∧
    ∀ name : Text, (Worker.hasRoot (utf16 name) || Worker.traverses (utf16 name)) = true →
      Worker.safeRelativeItemPath (utf16 name) = none ∧
        Verifier.unsafeArchivePath name = true := by
  refine ⟨outputPaths_projectAll T present {} items h, fun name hname => ?_⟩
  have htraverses : Worker.traverses (utf16 name) = traverses name := by
    rw [Worker.traverses, traverses, pathElements_utf16, List.any_map]
    refine congrArg (List.any _) (funext fun part => ?_)
    exact utf16_beq part ['.', '.']
  have hunsafe : Verifier.unsafeArchivePath name = true := by
    rw [unsafeArchivePath_eq, ← htraverses, hname]
  rw [safeRelativeItemPath_utf16, hunsafe]
  exact ⟨rfl, rfl⟩

/-- Two names that differ in case, a reserved name, and a file below a redirected directory. -/
def collidingItems : List ArchiveItem :=
  [⟨"docs/a.txt".toList, false⟩, ⟨"Docs\\A.TXT".toList, false⟩, ⟨"con".toList, false⟩,
    ⟨"CON".toList, true⟩, ⟨"con/what?".toList, false⟩, ⟨"./".toList, true⟩]

theorem projection_agrees_collidingItems :
    ∃ paths, Worker.outputPaths .asciiOnly (fun _ _ => none) {}
        (collidingItems.map fun item => (utf16 item.name, item.isDirectory)) = some paths ∧
      paths.map Worker.genericWString =
        (Verifier.projectAll .asciiOnly {} collidingItems).map utf16 :=
  (projection_agrees .asciiOnly (fun _ _ => none) collidingItems (by decide)).1

end Sunpack.OutputPaths
