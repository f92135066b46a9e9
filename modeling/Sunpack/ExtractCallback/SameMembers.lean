import Sunpack.ArchiveState.HardLinkSizes
import Sunpack.ExtractCallback.Finalize
import Sunpack.OutputPaths.Requests

/-!
# The worker and the manifest follow the same links

`finalizeHardLinks` works on the items that the worker wrote, `tarHardLinkSizes` on the members that
the manifest's walk found. For the same members they follow the same links, so the manifest has an
answer exactly when the worker can make every link, and then with the sizes of the worker's items.
-/

namespace Sunpack.ExtractCallback

open Lib OutputPaths ArchiveState

/-! ## Names -/

/-- A name that both sides take. -/
def SafeName (name : Text) : Prop := (Worker.safeRelativeItemPath (utf16 name)).isSome = true

/-- The last element of a name, behind its last separator. -/
def lastElement (name : Text) : Text := ((name.splitOnP Verifier.isSeparator).getLast?).getD []

def NoTrailingSeparator (name : Text) : Prop := SafeName name ∧ lastElement name ≠ []

/-- The last element is not the directory itself. -/
def PlainName (name : Text) : Prop := NoTrailingSeparator name ∧ lastElement name ≠ ['.']

theorem SafeName.cases {name : Text} (h : SafeName name) :
    Worker.hasRoot (utf16 name) = false ∧ Verifier.unsafeArchivePath name = false ∧
      archiveParts name ≠ [] ∧ traverses name = false := by
  unfold SafeName at h
  rw [safeRelativeItemPath_utf16] at h
  split_ifs at h with hrefused
  · exact absurd h (by simp)
  · rw [Bool.or_eq_true, not_or, Bool.not_eq_true, List.isEmpty_iff] at hrefused
    have hsafe := hrefused.1
    rw [unsafeArchivePath_eq, Bool.or_eq_false_iff] at hsafe
    exact ⟨hsafe.1, hrefused.1, hrefused.2, hsafe.2⟩

/-- Without parts that go up, the normal form keeps the parts that the manifest keeps. -/
theorem foldl_normalStep {parts : List Text} (h : ∀ part ∈ parts, part ≠ ['.', '.'])
    (normal : List WString) :
    (parts.map utf16).foldl normalStep normal =
      normal ++ (parts.filter Verifier.keepsPart).map utf16 := by
  induction parts generalizing normal with
  | nil => exact (List.append_nil _).symm
  | cons part parts ih =>
    have htwo := h part List.mem_cons_self
    have hdot : (utf16 part == [wide '.']) = (part == ['.']) := utf16_beq part ['.']
    have hdots : (utf16 part == [wide '.', wide '.']) = (part == ['.', '.']) :=
      utf16_beq part ['.', '.']
    have hempty : (utf16 part).isEmpty = part.isEmpty := by
      rw [Bool.eq_iff_iff, List.isEmpty_iff, List.isEmpty_iff]
      exact utf16_transparent.encode_eq_nil
    have hstep : normalStep normal (utf16 part) =
        normal ++ if Verifier.keepsPart part then [utf16 part] else [] := by
      unfold normalStep Verifier.keepsPart
      rw [hdot, hdots, hempty, beq_false_of_ne htwo]
      cases hnil : part.isEmpty with
      | true => simp [List.isEmpty_iff.1 hnil]
      | false =>
        have hne : part ≠ [] := fun heq => absurd hnil (by simp [heq])
        by_cases hone : part = ['.']
        · simp [hone]
        · simp [hone, hne, htwo]
    rw [List.map_cons, List.foldl_cons, hstep, ih fun p hp => h p (List.mem_cons_of_mem _ hp),
      List.filter_cons, List.append_assoc]
    split_ifs
    · rfl
    · rfl

/-- The worker's key of a name is the manifest's. -/
theorem archivePathKey_utf16 (rooted : WString → WString) {name : Text} (h : PlainName name) :
    archivePathKey rooted (utf16 name) = utf16 (Verifier.cleanRelativeArchivePath name) := by
  obtain ⟨⟨hsafe, hempty⟩, hdot⟩ := h
  obtain ⟨hroot, -, hparts, htraverses⟩ := hsafe.cases
  have hup : ∀ part ∈ name.splitOnP Verifier.isSeparator, part ≠ ['.', '.'] := by
    intro part hmem heq
    have := List.any_eq_false.1 htraverses part hmem
    exact this (by rw [heq]; rfl)
  have hname : name ≠ [] := by
    rintro rfl
    exact hparts rfl
  have hutf : (utf16 name).isEmpty = false := by
    rw [List.isEmpty_eq_false_iff]
    exact fun heq => hname (utf16_transparent.encode_eq_nil.1 heq)
  obtain ⟨last, hlast⟩ : ∃ last, (name.splitOnP Verifier.isSeparator).getLast? = some last :=
    ⟨_, List.getLast?_eq_some_getLast (List.splitOnP_ne_nil _ _)⟩
  rw [lastElement, hlast, Option.getD_some] at hempty hdot
  have hnormal : ((name.splitOnP Verifier.isSeparator).map utf16).foldl normalStep [] =
      (archiveParts name).map utf16 := by
    rw [foldl_normalStep hup, List.nil_append, archiveParts]
  have hremoved : (((name.splitOnP Verifier.isSeparator).map utf16).getLast?.any fun element =>
      element.isEmpty || element == [wide '.'] || element == [wide '.', wide '.']) = false := by
    have hone : (utf16 last == [wide '.']) = (last == ['.']) := utf16_beq last ['.']
    have htwo : (utf16 last == [wide '.', wide '.']) = (last == ['.', '.']) :=
      utf16_beq last ['.', '.']
    rw [List.getLast?_map, hlast, Option.map_some, Option.any_some, hone, htwo,
      beq_false_of_ne hdot, beq_false_of_ne (hup last (List.mem_of_getLast? hlast)), Bool.or_false,
      Bool.or_false, List.isEmpty_eq_false_iff]
    exact fun heq => hempty (utf16_transparent.encode_eq_nil.1 heq)
  obtain ⟨end', hend⟩ : ∃ end', ((archiveParts name).map utf16).getLast? = some end' :=
    ⟨_, List.getLast?_eq_some_getLast (by rwa [ne_eq, List.map_eq_nil_iff])⟩
  have hslash : encode utf16EncodeChar ['/'] = [wide '/'] := rfl
  rw [archivePathKey, hutf, if_neg (by simp), hroot, if_neg (by simp), pathElements_utf16,
    lexicallyNormal]
  simp only [hnormal, hend, hremoved, Bool.false_and, Bool.false_eq_true, if_false]
  rw [cleanRelativeArchivePath_eq, Verifier.join, utf16, encode_intercalate, hslash]
  rfl

/-! ## Members and items -/

/-- An item of the worker for a member of the walk: a file or a hard link with a name, or a directory.
A file was written and verified; a hard link has no data, so no size of its own. -/
structure SameMember (named : Text → Prop) (m : Placed) (item : Item) : Prop where
  kind : item.isDir = !m.isFile
  path : m.isFile = true → ∃ path, m.path = some path ∧ named path ∧ item.path = utf16 path
  target : ∀ target, m.isFile = true → m.hardLink = some target → named target
  file : m.isFile = true → m.hardLink = none → item.done = true ∧ item.failed = false ∧
    item.crcVerified = true ∧ item.bytesWritten.toNat = m.size
  link : m.isHardLink = true → item.failed = false ∧
    (item.hasExpectedSize = true → item.expectedSize = 0)

/-- The hard links that the worker defers for the members. -/
def linksOf (rooted : WString → WString) (members : List Placed) : List HardLink :=
  members.zipIdx.filterMap fun p =>
    if p.1.isFile then
      p.1.hardLink.map fun target => ⟨p.2, archivePathKey rooted (utf16 target)⟩
    else none

/-- The worker's items are those of the walk, and links can be made. -/
structure SameMembers (named : Text → Prop) (env : Env) (w : TarWalk) (x : Extraction) : Prop where
  members : List.Forall₂ (SameMember named) w.members x.items
  hardLinks : x.hardLinks = linksOf env.rooted w.members
  created : ∀ link ∈ x.hardLinks, ∀ item, x.items[link.trace]? = some item →
    (env.attempt link.trace item).kind = .succeeded

namespace SameMembers

variable {named : Text → Prop} {env : Env} {w : TarWalk} {x : Extraction}

theorem item (h : SameMembers named env w x) {i : Nat} {m : Placed} (hm : w.members[i]? = some m) :
    ∃ item, x.items[i]? = some item ∧ SameMember named m item := by
  obtain ⟨hlength, hget⟩ := List.forall₂_iff_get.1 h.members
  obtain ⟨hi, rfl⟩ := List.getElem?_eq_some_iff.1 hm
  exact ⟨_, List.getElem?_eq_getElem (hlength ▸ hi), hget i hi (hlength ▸ hi)⟩

theorem member (h : SameMembers named env w x) {i : Nat} {item : Item}
    (hi : x.items[i]? = some item) : ∃ m, w.members[i]? = some m ∧ SameMember named m item := by
  obtain ⟨hlength, hget⟩ := List.forall₂_iff_get.1 h.members
  obtain ⟨hlt, rfl⟩ := List.getElem?_eq_some_iff.1 hi
  exact ⟨_, List.getElem?_eq_getElem (hlength ▸ hlt), hget i (hlength ▸ hlt) hlt⟩

theorem mem_hardLinks (h : SameMembers named env w x) {link : HardLink} :
    link ∈ x.hardLinks ↔ ∃ m target, w.members[link.trace]? = some m ∧ m.isFile = true ∧
      m.hardLink = some target ∧ link.target = archivePathKey env.rooted (utf16 target) := by
  rw [h.hardLinks, linksOf, List.mem_filterMap]
  constructor
  · rintro ⟨⟨m, i⟩, hmem, hlink⟩
    dsimp only at hlink
    split_ifs at hlink with hfile
    obtain ⟨target, htarget, rfl⟩ := Option.map_eq_some_iff.1 hlink
    exact ⟨m, target, List.mk_mem_zipIdx_iff_getElem?.1 hmem, hfile, htarget, rfl⟩
  · rintro ⟨m, target, hm, hfile, htarget, hkey⟩
    refine ⟨(m, link.trace), List.mk_mem_zipIdx_iff_getElem?.2 hm, ?_⟩
    dsimp only
    rw [if_pos hfile, htarget, Option.map_some, ← hkey]

/-- The link at an item is that of its member. -/
theorem linkAt_eq_some (h : SameMembers named env w x) {i : Nat} {m : Placed}
    (hm : w.members[i]? = some m) {link : HardLink} :
    x.linkAt i = some link ↔ link.trace = i ∧ m.isFile = true ∧ ∃ target,
      m.hardLink = some target ∧ link.target = archivePathKey env.rooted (utf16 target) := by
  constructor
  · intro hlink
    obtain rfl := Extraction.trace_of_linkAt hlink
    obtain ⟨m', target, hm', hfile, htarget⟩ := h.mem_hardLinks.1 (List.mem_of_find?_eq_some hlink)
    obtain rfl := Option.some.inj (hm.symm.trans hm')
    exact ⟨rfl, hfile, target, htarget⟩
  · rintro ⟨rfl, hfile, target, htarget⟩
    obtain ⟨j, hj⟩ := List.mem_iff_getElem?.1 (h.mem_hardLinks.2 ⟨m, target, hm, hfile, htarget⟩)
    exact Extraction.linkAt_of_getElem? hj

theorem linkAt_eq_none (h : SameMembers named env w x) {i : Nat} {m : Placed}
    (hm : w.members[i]? = some m) : x.linkAt i = none ↔ m.isHardLink = false := by
  rw [Option.eq_none_iff_forall_not_mem, Placed.isHardLink]
  constructor
  · intro hno
    by_contra hlink
    rw [Bool.not_eq_false, Bool.and_eq_true, Option.isSome_iff_exists] at hlink
    obtain ⟨hfile, target, htarget⟩ := hlink
    exact hno ⟨i, _⟩ ((h.linkAt_eq_some hm).2 ⟨rfl, hfile, target, htarget, rfl⟩)
  · intro hno link hlink
    obtain ⟨-, hfile, target, htarget, -⟩ := (h.linkAt_eq_some hm).1 hlink
    rw [hfile, htarget] at hno
    exact absurd hno (by simp)

/-! ## Sources -/

/-- The members with a name, with their places. -/
def namedPlaces (w : TarWalk) (target : Text) : List (Placed × Nat) :=
  w.members.zipIdx.filter fun p => p.1.isNamed target

theorem fst_namedPlaces (w : TarWalk) (target : Text) :
    (namedPlaces w target).map (·.1) = w.members.filter (Placed.isNamed target) := by
  have hfst : w.members.zipIdx.map (·.1) = w.members := List.zipIdx_map_fst 0 w.members
  conv_rhs => rw [← hfst, List.filter_map]
  rfl

/-- The items with a target's name are the members with that name. -/
theorem placesFrom_eq (h : SameMembers PlainName env w x) {target : Text} (hplain : PlainName target) :
    placesFrom env.rooted (archivePathKey env.rooted (utf16 target)) x.items 0 =
      (namedPlaces w target).map (·.2) := by
  have hnamed {m : Placed} {item : Item} (hsame : SameMember PlainName m item) :
      item.isNamed env.rooted (archivePathKey env.rooted (utf16 target)) = m.isNamed target := by
    unfold Item.isNamed Placed.isNamed
    cases hfile : m.isFile with
    | false => rw [hsame.kind, hfile, Bool.not_false, Bool.not_true, Bool.false_and, Bool.false_and]
    | true =>
      obtain ⟨path, hpath, hplain', hitem⟩ := hsame.path hfile
      rw [hsame.kind, hfile, hpath, hitem, archivePathKey_utf16 _ hplain,
        archivePathKey_utf16 _ hplain', utf16_beq]
      rfl
  have hall {members : List Placed} {items : List Item}
      (hsame : List.Forall₂ (SameMember PlainName) members items) (i : Nat) :
      ((items.zipIdx i).filter fun p =>
          p.1.isNamed env.rooted (archivePathKey env.rooted (utf16 target))).map (·.2) =
        ((members.zipIdx i).filter fun p => p.1.isNamed target).map (·.2) := by
    induction hsame generalizing i with
    | nil => rfl
    | cons hsame _ ih =>
      rw [List.zipIdx_cons, List.zipIdx_cons, List.filter_cons, List.filter_cons, hnamed hsame]
      split_ifs
      · rw [List.map_cons, List.map_cons, ih]
      · exact ih (i + 1)
  exact hall h.members 0

/-- Both sides choose the same member. -/
theorem sources (h : SameMembers PlainName env w x) {i : Nat} {m : Placed}
    (hm : w.members[i]? = some m) :
    ∃ found : Option (Placed × Nat), x.source env i = found.map (·.2) ∧
      w.source m = found.map (·.1) ∧ ∀ p ∈ found, w.members[p.2]? = some p.1 := by
  by_cases hlink : m.isHardLink = true
  · rw [Placed.isHardLink, Bool.and_eq_true, Option.isSome_iff_exists] at hlink
    obtain ⟨hfile, target, htarget⟩ := hlink
    obtain ⟨item, -, hsame⟩ := h.item hm
    have hplaced {p : Placed × Nat} (hp : p ∈ namedPlaces w target) : w.members[p.2]? = some p.1 :=
      List.mk_mem_zipIdx_iff_getElem?.1 (List.mem_of_mem_filter hp)
    have hbefore : ∀ p ∈ namedPlaces w target,
        decide (p.2 < i) = decide (p.1.offset < m.offset) := by
      intro p hp
      obtain ⟨hi, rfl⟩ := List.getElem?_eq_some_iff.1 hm
      obtain ⟨hj, hget⟩ := List.getElem?_eq_some_iff.1 (hplaced hp)
      have hless := List.pairwise_iff_getElem.1 w.ordered
      rw [← hget, Bool.eq_iff_iff, decide_eq_true_eq, decide_eq_true_eq]
      rcases Nat.lt_trichotomy p.2 i with hlt | heq | hgt
      · exact iff_of_true hlt (hless _ _ hj hi hlt)
      · simp only [heq, lt_irrefl]
      · exact iff_of_false (by omega) (by have := hless _ _ hi hj hgt; omega)
    refine ⟨latestOrFirst (fun p => decide (p.2 < i)) (namedPlaces w target), ?_, ?_, ?_⟩
    · have hat : x.linkAt i = some ⟨i, archivePathKey env.rooted (utf16 target)⟩ :=
        (h.linkAt_eq_some hm).2 ⟨rfl, hfile, target, htarget, rfl⟩
      rw [Extraction.source, hat, Option.bind_some, h.placesFrom_eq (hsame.target target hfile htarget),
        latestOrFirst_map]
      rfl
    · rw [TarWalk.source, if_pos hfile, htarget, Option.bind_some, ← fst_namedPlaces,
        latestOrFirst_map, latestOrFirst_congr hbefore]
      rfl
    · exact fun p hp => hplaced (mem_of_latestOrFirst hp)
  · rw [Bool.not_eq_true] at hlink
    refine ⟨none, Extraction.source_of_notLink ((h.linkAt_eq_none hm).2 hlink), ?_, fun p hp => ?_⟩
    · rw [Placed.isHardLink] at hlink
      unfold TarWalk.source
      cases hfile : m.isFile with
      | false => rfl
      | true =>
        rw [hfile, Bool.true_and, Option.isSome_eq_false_iff, Option.isNone_iff_eq_none] at hlink
        rw [hlink]
        rfl
    · exact absurd hp (by simp)

/-- The member is at the place. -/
def At (w : TarWalk) (m : Placed) (i : Nat) : Prop := w.members[i]? = some m

theorem source_at (h : SameMembers PlainName env w x) (m : Placed) (i : Nat) (d : Placed)
    (hm : At w m i) (hd : w.source m = some d) : ∃ j, x.source env i = some j ∧ At w d j := by
  obtain ⟨found, hi, hsource, hfound⟩ := h.sources hm
  obtain ⟨p, rfl, rfl⟩ := Option.map_eq_some_iff.1 (hsource.symm.trans hd)
  exact ⟨p.2, hi, hfound p rfl⟩

theorem source_of_at (h : SameMembers PlainName env w x) (i : Nat) (m : Placed) (j : Nat)
    (hm : At w m i) (hj : x.source env i = some j) : ∃ d, w.source m = some d ∧ At w d j := by
  obtain ⟨found, hi, hsource, hfound⟩ := h.sources hm
  obtain ⟨p, rfl, rfl⟩ := Option.map_eq_some_iff.1 (hi.symm.trans hj)
  exact ⟨p.1, hsource, hfound p rfl⟩

theorem source_none_iff (h : SameMembers PlainName env w x) {m : Placed} {i : Nat} (hm : At w m i) :
    w.source m = none ↔ x.source env i = none := by
  obtain ⟨found, hi, hsource, -⟩ := h.sources hm
  rw [hi, hsource, Option.map_eq_none_iff, Option.map_eq_none_iff]

/-! ## Sizes -/

/-- The worker's chain ends at a good file when the manifest's ends at a file. -/
theorem reaches_of_hasSize (h : SameMembers PlainName env w x) {m : Placed} {i : Nat}
    (hm : At w m i) {size : Nat} (hsize : w.HasSize m size) :
    ∃ file, x.Reaches env i file ∧ file.bytesWritten.toNat = size := by
  obtain ⟨f, -, hend, hfile, hregular, rfl⟩ := hsize
  obtain ⟨e, hend', hf⟩ := hend.image (R := At w) h.source_at
    (fun a b hab => (h.source_none_iff hab).1) hm
  obtain ⟨item, hitem, hsame⟩ := h.item hf
  obtain ⟨hdone, hfailed, hverified, hbytes⟩ := hsame.file hfile hregular
  have hnot : x.linkAt e = none := by
    rw [h.linkAt_eq_none hf, Placed.isHardLink, hregular, Option.isSome_none, Bool.and_false]
  refine ⟨item, ⟨⟨e, hend', hnot, hitem⟩, ⟨hdone, hfailed, hverified⟩, fun u _ hu => ?_⟩, hbytes⟩
  -- every link can be made, and none has a size of its own
  obtain ⟨link, hlink⟩ := Option.ne_none_iff_exists'.1 hu
  obtain rfl := Extraction.trace_of_linkAt hlink
  have hmem := List.mem_of_find?_eq_some hlink
  obtain ⟨d, target, hd, hdfile, hdtarget, -⟩ := h.mem_hardLinks.1 hmem
  obtain ⟨it, hit, hsame⟩ := h.item hd
  obtain ⟨hitFailed, hitSize⟩ := hsame.link (by rw [Placed.isHardLink, hdfile, hdtarget]; rfl)
  refine ⟨it, hit, hitFailed, ?_, h.created link hmem it hit⟩
  unfold Item.fits
  cases hhas : it.hasExpectedSize with
  | false => rfl
  | true => rw [hitSize hhas]; rfl

theorem hasSize_of_reaches (h : SameMembers PlainName env w x) {m : Placed} {i : Nat}
    (hm : At w m i) (hmfile : m.isFile = true) {file : Item} (hr : x.Reaches env i file) :
    w.HasSize m file.bytesWritten.toNat := by
  obtain ⟨e, hend, hnot, hitem⟩ := hr.ends
  obtain ⟨f, hend', hf⟩ := hend.image (R := fun i m => At w m i) h.source_of_at
    (fun a b hab => (h.source_none_iff hab).2) hm
  have hffile : f.isFile = true := by
    have hreaches := hend'.reaches
    rcases Relation.ReflTransGen.cases_tail hreaches with rfl | ⟨d, -, hd⟩
    · exact hmfile
    · exact (TarWalk.mem_of_source hd).2
  have hregular : f.hardLink = none := by
    have hlink := (h.linkAt_eq_none hf).1 hnot
    rw [Placed.isHardLink, hffile, Bool.true_and, Option.isSome_eq_false_iff,
      Option.isNone_iff_eq_none] at hlink
    exact hlink
  obtain ⟨item, hitem', hsame⟩ := h.item hf
  obtain rfl := Option.some.inj (hitem.symm.trans hitem')
  exact ⟨f, List.mem_of_getElem? hf, hend', hffile, hregular, (hsame.file hffile hregular).2.2.2.symm⟩

theorem hasSize_unique {m : Placed} {size size' : Nat} (h : w.HasSize m size)
    (h' : w.HasSize m size') : size = size' := by
  obtain ⟨f, -, hend, -, -, rfl⟩ := h
  obtain ⟨f', -, hend', -, -, rfl⟩ := h'
  rw [hend.unique hend']

/-- A link that leads to a file is no damage. -/
theorem exists_answer_iff (h : SameMembers PlainName env w x) :
    (∃ answer, w.sizes = .ok answer) ↔ ∀ m ∈ w.hardLinks, ∃ size, w.HasSize m size := by
  constructor
  · rintro ⟨⟨total, entries⟩, hok⟩ m hm
    obtain ⟨found, hfound, -⟩ := (w.sizes_spec.2 total entries hok).total
    obtain ⟨i, hi, rfl⟩ := List.mem_iff_getElem.1 hm
    obtain ⟨hlength, hget⟩ := List.forall₂_iff_get.1 hfound
    exact ⟨_, hget i hi (hlength ▸ hi)⟩
  · intro hall
    cases hsizes : w.sizes with
    | ok answer => exact ⟨answer, rfl⟩
    | error message =>
      exfalso
      have herror : w.sizes = .error hardLinkError := by
        rw [TarWalk.sizes, tarHardLinkSizes] at hsizes ⊢
        cases hlinks : linkSizes w.members (rowsOf w.members).links (rowsOf w.members).entries with
        | none => rfl
        | some answer =>
          rw [hlinks] at hsizes
          exact absurd hsizes (by simp)
      obtain ⟨m, hm, hbad⟩ := w.sizes_spec.1.1 herror
      obtain ⟨size, hsize⟩ := hall m hm
      obtain ⟨hmem, hfile, target, htarget⟩ := TarWalk.mem_hardLinks.1 hm
      rcases hbad with ⟨target', htarget', hbad⟩ | hcycle
      · obtain rfl := Option.some.inj (htarget.symm.trans htarget')
        obtain ⟨i, hi⟩ := List.mem_iff_getElem?.1 hmem
        obtain ⟨item, -, hsame⟩ := h.item hi
        have hsafe := (hsame.target target hfile htarget).1.1
        obtain ⟨-, hsafe', hparts, -⟩ := hsafe.cases
        rcases hbad with hbad | rfl | hbad
        · exact absurd (hbad.symm.trans hsafe') (by simp)
        · exact hparts rfl
        · -- without a member of that name, the chain would stop at the link itself
          obtain ⟨f, -, hend, -, hregular, -⟩ := hsize
          have hnone := (TarWalk.source_eq_none hfile htarget).2 fun c hc => hbad c hc
          obtain rfl := hend.unique (.stop hnone)
          exact absurd (hregular.symm.trans htarget) (by simp)
      · exact hsize.not_runsIntoCycle hcycle

/-- All links are done when every link leads to a file. -/
theorem all_done_iff (h : SameMembers PlainName env w x) {s : Callback}
    (hs : x.Finalized env s) :
    (∀ link ∈ x.hardLinks, ∃ item ∈ s.items[link.trace]?, item.done = true) ↔
      ∀ m ∈ w.hardLinks, ∃ size, w.HasSize m size := by
  constructor
  · intro hdone m hm
    obtain ⟨hmem, hfile, target, htarget⟩ := TarWalk.mem_hardLinks.1 hm
    obtain ⟨i, hi⟩ := List.mem_iff_getElem?.1 hmem
    have hlink : (⟨i, archivePathKey env.rooted (utf16 target)⟩ : HardLink) ∈ x.hardLinks :=
      h.mem_hardLinks.2 ⟨m, target, hi, hfile, htarget, rfl⟩
    obtain ⟨it, hit⟩ : ∃ it, x.items[i]? = some it :=
      ⟨_, List.getElem?_eq_getElem (x.inside _ hlink)⟩
    obtain ⟨item, hitem, hitDone⟩ := hdone _ hlink
    obtain ⟨item', hitem', hiff, -⟩ := hs.links _ hlink it hit
    obtain rfl := Option.some.inj (hitem.symm.trans hitem')
    obtain ⟨file, hr⟩ := hiff.1 hitDone
    exact ⟨_, h.hasSize_of_reaches hi hfile hr⟩
  · intro hall link hlink
    obtain ⟨m, target, hm, hfile, htarget, -⟩ := h.mem_hardLinks.1 hlink
    obtain ⟨it, hit⟩ : ∃ it, x.items[link.trace]? = some it :=
      ⟨_, List.getElem?_eq_getElem (x.inside _ hlink)⟩
    obtain ⟨item, hitem, hiff, -⟩ := hs.links _ hlink it hit
    obtain ⟨size, hsize⟩ := hall m
      (TarWalk.mem_hardLinks.2 ⟨List.mem_of_getElem? hm, hfile, target, htarget⟩)
    obtain ⟨file, hr, -⟩ := h.reaches_of_hasSize hm hsize
    exact ⟨item, hitem, hiff.2 ⟨file, hr⟩⟩

/-- After the finalization an item has the size of its member. -/
theorem bytes_of_hasSize (h : SameMembers PlainName env w x) {s : Callback}
    (hs : x.Finalized env s) {m : Placed} {i : Nat} (hm : At w m i) {size : Nat}
    (hsize : w.HasSize m size) : ∃ item, s.items[i]? = some item ∧ item.bytesWritten.toNat = size := by
  obtain ⟨file, hr, hbytes⟩ := h.reaches_of_hasSize hm hsize
  obtain ⟨it, hit, -⟩ := h.item hm
  cases hlink : x.linkAt i with
  | none =>
    have hfile := ((Extraction.reaches_notLink hlink file).1 hr).1
    exact ⟨file, (hs.others i hlink).trans hfile, hbytes⟩
  | some link =>
    obtain rfl := Extraction.trace_of_linkAt hlink
    obtain ⟨item, hitem, -, hmade⟩ := hs.links link (List.mem_of_find?_eq_some hlink) it hit
    refine ⟨item, hitem, ?_⟩
    rw [hmade file hr]
    exact hbytes

/-- The sizes of the items that the manifest lists. -/
def listedSizes (w : TarWalk) (s : Callback) : List Nat :=
  ((w.members.zip s.items).filter fun p => p.1.isListed).map fun p => p.2.bytesWritten.toNat

theorem entries_eq (h : SameMembers PlainName env w x) {s : Callback} (hs : x.Finalized env s)
    {entries : List Nat} (hentries : List.Forall₂ w.HasSize w.listed entries) :
    entries = listedSizes w s := by
  have hlength : w.members.length = s.items.length := h.members.length_eq.trans hs.length.symm
  have hall {members : List Placed} {items : List Item} (hsame : List.Forall₂
      (fun m item => ∀ size, w.HasSize m size → item.bytesWritten.toNat = size) members items)
      {entries : List Nat}
      (hentries : List.Forall₂ w.HasSize (members.filter Placed.isListed) entries) :
      entries = ((members.zip items).filter fun p => p.1.isListed).map
        fun p => p.2.bytesWritten.toNat := by
    induction hsame generalizing entries with
    | nil => exact List.forall₂_nil_left_iff.1 hentries
    | cons hsame _ ih =>
      rw [List.filter_cons] at hentries
      rw [List.zip_cons_cons, List.filter_cons]
      dsimp only at hentries ⊢
      split_ifs at hentries ⊢ with hlisted
      · obtain ⟨size, rest, hsize, hrest, rfl⟩ := List.forall₂_cons_left_iff.1 hentries
        rw [List.map_cons, ← ih hrest]
        exact congrArg (· :: rest) (hsame size hsize).symm
      · exact ih hentries
  refine hall (List.forall₂_iff_get.2 ⟨hlength, fun i hi hi' size hsize => ?_⟩) hentries
  obtain ⟨item, hitem, hbytes⟩ := h.bytes_of_hasSize hs (List.getElem?_eq_getElem hi) hsize
  rw [List.getElem?_eq_getElem hi'] at hitem
  obtain rfl := Option.some.inj hitem
  exact hbytes

end SameMembers

/-- An environment where links can be made. -/
def plainEnv : Env := ⟨id, false, fun _ => false, fun _ => ⟨.succeeded, 0⟩⟩

def itemOf (index : Nat) (path : String) (size : UInt64) (done : Bool) : Item where
  index := index
  path := utf16 path.toList
  isDir := false
  hasExpectedSize := done
  expectedSize := size
  bytesWritten := size
  receipt := ⟨[], false, 0, false, 0⟩
  done := done
  failed := false
  crcVerified := done
  operationResult := kOpOk
  win32Error := 0
  hresult := S_OK

/-- A file and a link to a target. -/
def pairWalk (target : String) : TarWalk where
  members := [⟨⟨some ['f'], true, 3, none⟩, 0⟩, ⟨⟨some ['a'], true, 0, some target.toList⟩, 1024⟩]
  ordered := by simp

def pair (target : String) : Extraction where
  callback := ⟨[itemOf 0 "f" 3 true, itemOf 1 "a" 0 false], 1, 3, 3, kOpOk, false, [], 0, 0, 0⟩
  hardLinks := [⟨1, archivePathKey id (utf16 target.toList)⟩]
  ordered := by simp
  inside := by simp

theorem pair_sameMembers {named : Text → Prop} {target : String} (hf : named ['f'])
    (ha : named ['a']) (htarget : named target.toList) :
    SameMembers named plainEnv (pairWalk target) (pair target) where
  members := by
    refine .cons ⟨rfl, fun _ => ⟨_, rfl, hf, rfl⟩, fun _ _ h => absurd h (by simp),
      fun _ _ => ⟨rfl, rfl, rfl, rfl⟩, fun h => absurd h (by decide)⟩ (.cons ⟨rfl,
      fun _ => ⟨_, rfl, ha, rfl⟩, fun t _ h => Option.some.inj h ▸ htarget,
      fun _ h => absurd h (by simp), fun _ => ⟨rfl, fun h => absurd h (by decide)⟩⟩ .nil)
  hardLinks := rfl
  created := fun _ _ _ _ => rfl

theorem plainName_of_decide {name : Text} (h : ((Worker.safeRelativeItemPath (utf16 name)).isSome &&
    lastElement name != [] && lastElement name != ['.']) = true) : PlainName name := by
  simp only [Bool.and_eq_true, bne_iff_ne] at h
  exact h

end Sunpack.ExtractCallback
