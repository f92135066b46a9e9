import Sunpack.ArchiveRegistry.Paths
import Sunpack.Lib.Dict

/-!
# The archive registry

`archive_registry.py`: who holds which archives. A lease keeps its identities in sets, so that two
leases are compared without looking at every pair; `FileIdentity` of `resource_lifecycle.py` says what
a pair is. `watch_conflict` is left out.
-/

namespace Sunpack.ArchiveRegistry

open Lib

/-! ## Identities -/

/-- What `os.stat` says of a file. -/
structure Stat where
  dev : Nat
  ino : Nat
  isDir : Bool

/-- What the system answers during one call: `abspath` of a normalised path, the normalised key of a
path, and the files there are. -/
structure FileSystem where
  abspath : Text → Text
  normalizedPath : Text → NormalPath
  stat : NormalPath → Option Stat

structure FileIdentity where
  path : NormalPath
  device : Option Nat := none
  fileId : Option Nat := none
  isDirectory : Bool := false

namespace FileIdentity

def fromPath (files : FileSystem) (path : Text) : FileIdentity :=
  let normalized := files.normalizedPath path
  match files.stat normalized with
  | none => { path := normalized }
  | some metadata =>
    { path := normalized
      device := if metadata.dev ≠ 0 then some metadata.dev else none
      fileId := if metadata.ino ≠ 0 then some metadata.ino else none
      isDirectory := metadata.isDir }

/-- The device and the id, if both are known. -/
def physical? (i : FileIdentity) : Option (Nat × Nat) :=
  i.device.bind fun device => i.fileId.map fun fileId => (device, fileId)

def sameFile (i j : FileIdentity) : Bool :=
  if i.physical?.isSome && j.physical?.isSome then i.device = j.device && i.fileId = j.fileId
  else i.path.text = j.path.text

def contains (i j : FileIdentity) : Bool :=
  if i.sameFile j then true else i.isDirectory && NormalPath.isUnder j.path.text i.path.text

def overlaps (i j : FileIdentity) : Bool := i.contains j || j.contains i

end FileIdentity

/-! ## Leases -/

inductive Origin
  | watch
  | foreground
deriving DecidableEq

structure Lease where
  owner : String
  origin : Origin
  identities : List FileIdentity

def isDisjoint {α : Type} [DecidableEq α] (s t : List α) : Bool := s.all fun x => x ∉ t

namespace Lease

def paths (lease : Lease) : List Text := lease.identities.map (·.path.text)

def physical (lease : Lease) : List (Nat × Nat) := lease.identities.filterMap (·.physical?)

def unidentified (lease : Lease) : List Text :=
  (lease.identities.filter fun i => i.physical?.isNone).map (·.path.text)

def directories (lease : Lease) : List Text :=
  (lease.identities.filter (·.isDirectory)).map (·.path.text)

def overlaps (lease other : Lease) : Bool :=
  !isDisjoint lease.physical other.physical
  || !isDisjoint lease.unidentified other.paths
  || !isDisjoint other.unidentified lease.paths
  || containsPaths lease.directories other.paths
  || containsPaths other.directories lease.paths

end Lease

/-! ## The registry -/

structure ArchiveConflict where
  owner : String
  origin : Origin
  paths : List Text

structure ActiveArchiveRegistry where
  leases : Dict String Lease := ∅

namespace ActiveArchiveRegistry

def findConflict (registry : ActiveArchiveRegistry) (candidate : Lease) : Option ArchiveConflict :=
  (registry.leases.entries.find? fun entry =>
    entry.1 ≠ candidate.owner && candidate.overlaps entry.2).map fun entry =>
      ⟨entry.2.owner, entry.2.origin, entry.2.paths⟩

/-- The lease of a request. -/
def candidate (files : FileSystem) (owner origin : String) (paths : List Text) : Lease where
  owner := owner
  origin := if origin.toLower = "watch" then .watch else .foreground
  identities := (((paths.filter (· ≠ [])).map files.abspath).eraseDups).map
    (FileIdentity.fromPath files)

def reserve (registry : ActiveArchiveRegistry) (files : FileSystem) (owner origin : String)
    (paths : List Text) : Option ArchiveConflict × ActiveArchiveRegistry :=
  let lease := candidate files owner origin paths
  match registry.findConflict lease with
  | some conflict => (some conflict, registry)
  | none => (none, { leases := registry.leases.set owner lease })

def release (registry : ActiveArchiveRegistry) (owner : String) : ActiveArchiveRegistry :=
  { leases := registry.leases.erase owner }

end ActiveArchiveRegistry

inductive Call
  | reserve (files : FileSystem) (owner origin : String) (paths : List Text)
  | release (owner : String)

def ActiveArchiveRegistry.call (registry : ActiveArchiveRegistry) : Call → ActiveArchiveRegistry
  | .reserve files owner origin paths => (registry.reserve files owner origin paths).2
  | .release owner => registry.release owner

def ActiveArchiveRegistry.run (calls : List Call) : ActiveArchiveRegistry :=
  calls.foldl ActiveArchiveRegistry.call {}

/-! ## Pairs -/

namespace FileIdentity

/-- The directory is a drive without a root, a share say, and the other path continues its text. -/
def BareContains (i j : FileIdentity) : Prop :=
  i.isDirectory = true ∧ i.path.rooted = false ∧ j.path.text ≠ i.path.text ∧
    NormalPath.isUnder j.path.text i.path.text = true

/-- Any other way in which one contains the other. -/
def PlainContains (i j : FileIdentity) : Prop :=
  i.sameFile j = true ∨ i.isDirectory = true ∧
    (j.path.text = i.path.text ∨
      i.path.rooted = true ∧ NormalPath.isUnder j.path.text i.path.text = true)

theorem contains_iff (i j : FileIdentity) :
    i.contains j = true ↔ i.PlainContains j ∨ i.BareContains j := by
  unfold contains PlainContains BareContains
  split_ifs with hsame
  · exact iff_of_true rfl (.inl (.inl hsame))
  · rw [Bool.and_eq_true]
    constructor
    · rintro ⟨hdir, hunder⟩
      by_cases htext : j.path.text = i.path.text
      · exact .inl (.inr ⟨hdir, .inl htext⟩)
      · cases hrooted : i.path.rooted with
        | true => exact .inl (.inr ⟨hdir, .inr ⟨rfl, hunder⟩⟩)
        | false => exact .inr ⟨hdir, rfl, htext, hunder⟩
    · rintro ((hsame' | ⟨hdir, htext | ⟨-, hunder⟩⟩) | ⟨hdir, -, -, hunder⟩)
      · exact absurd hsame' hsame
      · exact ⟨hdir, NormalPath.isUnder_iff.2 (.inl htext)⟩
      · exact ⟨hdir, hunder⟩
      · exact ⟨hdir, hunder⟩

theorem sameFile_comm (i j : FileIdentity) : i.sameFile j = j.sameFile i := by
  have hknown : ∀ a b : Option Nat, decide (a = b) = decide (b = a) := fun a b =>
    decide_eq_decide.2 eq_comm
  have htext : decide (i.path.text = j.path.text) = decide (j.path.text = i.path.text) :=
    decide_eq_decide.2 eq_comm
  unfold sameFile
  rw [Bool.and_comm, hknown i.device, hknown i.fileId, htext]

/-- The chain of a path meets a directory where the directory plainly contains the path. -/
theorem inChain_iff_plain {i j : FileIdentity} : InChain j.path.text i.path.text ↔
    j.path.text = i.path.text ∨
      i.path.rooted = true ∧ NormalPath.isUnder j.path.text i.path.text = true := by
  constructor
  · intro hchain
    cases hrooted : i.path.rooted with
    | true => exact .inr ⟨rfl, NormalPath.isUnder_of_inChain hchain⟩
    | false => exact .inl (NormalPath.eq_of_inChain_bare hrooted hchain)
  · rintro (htext | ⟨hrooted, hunder⟩)
    · rw [htext]
      exact InChain.refl _
    · exact (NormalPath.isUnder_rooted hrooted).1 hunder

theorem physical?_eq_some {i : FileIdentity} {device fileId : Nat} :
    i.physical? = some (device, fileId) ↔ i.device = some device ∧ i.fileId = some fileId := by
  unfold physical?
  cases i.device <;> cases i.fileId <;> simp

theorem sameFile_iff (i j : FileIdentity) : i.sameFile j = true ↔
    (∃ known, i.physical? = some known ∧ j.physical? = some known) ∨
      (i.physical? = none ∨ j.physical? = none) ∧ i.path.text = j.path.text := by
  unfold sameFile
  cases hi : i.physical? with
  | none => simp
  | some known =>
    cases hj : j.physical? with
    | none => simp
    | some known' =>
      obtain ⟨hdevice, hfile⟩ := physical?_eq_some.1 hi
      obtain ⟨hdevice', hfile'⟩ := physical?_eq_some.1 hj
      rw [hdevice, hfile, hdevice', hfile']
      simp only [Option.isSome_some, Bool.and_self, if_true, Bool.and_eq_true, decide_eq_true_eq,
        Option.some.injEq, reduceCtorEq, or_self, false_and, or_false, exists_eq_left']
      exact Prod.ext_iff.symm.trans eq_comm

end FileIdentity

/-! ## Leases compared -/

namespace Lease

open FileIdentity

theorem isDisjoint_eq_false {α : Type} [DecidableEq α] {s t : List α} :
    (!isDisjoint s t) = true ↔ ∃ x, x ∈ s ∧ x ∈ t := by
  unfold isDisjoint
  simp

theorem containsPaths_leases (a b : Lease) : containsPaths a.directories b.paths = true ↔
    ∃ i ∈ a.identities, ∃ j ∈ b.identities, i.isDirectory = true ∧ (j.path.text = i.path.text ∨
      i.path.rooted = true ∧ NormalPath.isUnder j.path.text i.path.text = true) := by
  rw [containsPaths_iff]
  constructor
  · rintro ⟨path, hpath, ancestor, hancestor, hchain⟩
    obtain ⟨j, hj, rfl⟩ := List.mem_map.1 hpath
    obtain ⟨i, hi, rfl⟩ := List.mem_map.1 hancestor
    obtain ⟨hi, hdir⟩ := List.mem_filter.1 hi
    exact ⟨i, hi, j, hj, hdir, inChain_iff_plain.1 hchain⟩
  · rintro ⟨i, hi, j, hj, hdir, hplain⟩
    exact ⟨_, List.mem_map_of_mem hj, _, List.mem_map_of_mem (List.mem_filter.2 ⟨hi, hdir⟩),
      inChain_iff_plain.2 hplain⟩

theorem mem_physical {lease : Lease} {known : Nat × Nat} :
    known ∈ lease.physical ↔ ∃ i ∈ lease.identities, i.physical? = some known :=
  List.mem_filterMap

theorem mem_unidentified {lease : Lease} {path : Text} : path ∈ lease.unidentified ↔
    ∃ i ∈ lease.identities, i.physical? = none ∧ i.path.text = path := by
  unfold unidentified
  rw [List.mem_map]
  constructor
  · rintro ⟨i, hi, hpath⟩
    obtain ⟨hi, hnone⟩ := List.mem_filter.1 hi
    exact ⟨i, hi, Option.isNone_iff_eq_none.1 hnone, hpath⟩
  · rintro ⟨i, hi, hnone, hpath⟩
    exact ⟨i, List.mem_filter.2 ⟨hi, Option.isNone_iff_eq_none.2 hnone⟩, hpath⟩

/-- The sets of two leases meet where two identities are one file. -/
theorem sameFile_leases (a b : Lease) :
    (((!isDisjoint a.physical b.physical) = true ∨ (!isDisjoint a.unidentified b.paths) = true) ∨
      (!isDisjoint b.unidentified a.paths) = true) ↔
    ∃ i ∈ a.identities, ∃ j ∈ b.identities, i.sameFile j = true := by
  rw [isDisjoint_eq_false, isDisjoint_eq_false, isDisjoint_eq_false]
  constructor
  · rintro ((⟨known, ha, hb⟩ | ⟨path, ha, hb⟩) | ⟨path, hb, ha⟩)
    · obtain ⟨i, hi, hknown⟩ := mem_physical.1 ha
      obtain ⟨j, hj, hknown'⟩ := mem_physical.1 hb
      exact ⟨i, hi, j, hj, (sameFile_iff i j).2 (.inl ⟨known, hknown, hknown'⟩)⟩
    · obtain ⟨i, hi, hnone, hpath⟩ := mem_unidentified.1 ha
      obtain ⟨j, hj, hpath'⟩ := List.mem_map.1 hb
      exact ⟨i, hi, j, hj, (sameFile_iff i j).2 (.inr ⟨.inl hnone, hpath.trans hpath'.symm⟩)⟩
    · obtain ⟨j, hj, hnone, hpath⟩ := mem_unidentified.1 hb
      obtain ⟨i, hi, hpath'⟩ := List.mem_map.1 ha
      exact ⟨i, hi, j, hj, (sameFile_iff i j).2 (.inr ⟨.inr hnone, hpath'.trans hpath.symm⟩)⟩
  · rintro ⟨i, hi, j, hj, hsame⟩
    rcases (sameFile_iff i j).1 hsame with ⟨known, hknown, hknown'⟩ | ⟨hnone | hnone, hpath⟩
    · exact .inl (.inl ⟨known, mem_physical.2 ⟨i, hi, hknown⟩, mem_physical.2 ⟨j, hj, hknown'⟩⟩)
    · exact .inl (.inr ⟨i.path.text, mem_unidentified.2 ⟨i, hi, hnone, rfl⟩,
        hpath ▸ List.mem_map_of_mem hj⟩)
    · exact .inr ⟨j.path.text, mem_unidentified.2 ⟨j, hj, hnone, rfl⟩,
        hpath ▸ List.mem_map_of_mem hi⟩

/-- What the sets and the walks find. -/
theorem overlaps_iff_plain (a b : Lease) : a.overlaps b = true ↔
    ∃ i ∈ a.identities, ∃ j ∈ b.identities, i.PlainContains j ∨ j.PlainContains i := by
  unfold overlaps
  rw [Bool.or_eq_true, Bool.or_eq_true, Bool.or_eq_true, Bool.or_eq_true, sameFile_leases,
    containsPaths_leases, containsPaths_leases]
  constructor
  · rintro ((⟨i, hi, j, hj, hsame⟩ | ⟨i, hi, j, hj, hdir⟩) | ⟨j, hj, i, hi, hdir⟩)
    · exact ⟨i, hi, j, hj, .inl (.inl hsame)⟩
    · exact ⟨i, hi, j, hj, .inl (.inr hdir)⟩
    · exact ⟨i, hi, j, hj, .inr (.inr hdir)⟩
  · rintro ⟨i, hi, j, hj, (hsame | hdir) | (hsame | hdir)⟩
    · exact .inl (.inl ⟨i, hi, j, hj, hsame⟩)
    · exact .inl (.inr ⟨i, hi, j, hj, hdir⟩)
    · exact .inl (.inl ⟨i, hi, j, hj, sameFile_comm i j ▸ hsame⟩)
    · exact .inr ⟨j, hj, i, hi, hdir⟩

/-- Some pair of identities overlaps. -/
def PairOverlaps (a b : Lease) : Prop :=
  ∃ i ∈ a.identities, ∃ j ∈ b.identities, i.overlaps j = true

/-- Where a directory that is a drive without a root contains a path of the other lease, the leases
overlap in a plain way too. -/
def NoBareOverlap (a b : Lease) : Prop :=
  (∃ i ∈ a.identities, ∃ j ∈ b.identities, i.BareContains j ∨ j.BareContains i) →
    ∃ i ∈ a.identities, ∃ j ∈ b.identities, i.PlainContains j ∨ j.PlainContains i

theorem pairOverlaps_iff (a b : Lease) : a.PairOverlaps b ↔
    (∃ i ∈ a.identities, ∃ j ∈ b.identities, i.PlainContains j ∨ j.PlainContains i) ∨
      ∃ i ∈ a.identities, ∃ j ∈ b.identities, i.BareContains j ∨ j.BareContains i := by
  unfold PairOverlaps FileIdentity.overlaps
  constructor
  · rintro ⟨i, hi, j, hj, hoverlaps⟩
    rw [Bool.or_eq_true, contains_iff, contains_iff] at hoverlaps
    rcases hoverlaps with (hplain | hbare) | (hplain | hbare)
    · exact .inl ⟨i, hi, j, hj, .inl hplain⟩
    · exact .inr ⟨i, hi, j, hj, .inl hbare⟩
    · exact .inl ⟨i, hi, j, hj, .inr hplain⟩
    · exact .inr ⟨i, hi, j, hj, .inr hbare⟩
  · rintro (⟨i, hi, j, hj, hplain⟩ | ⟨i, hi, j, hj, hbare⟩)
    · refine ⟨i, hi, j, hj, ?_⟩
      rw [Bool.or_eq_true, contains_iff, contains_iff]
      exact hplain.imp .inl .inl
    · refine ⟨i, hi, j, hj, ?_⟩
      rw [Bool.or_eq_true, contains_iff, contains_iff]
      exact hbare.imp .inr .inr

theorem overlaps_exact (a b : Lease) :
    (a.overlaps b = true ↔ a.PairOverlaps b) ↔ a.NoBareOverlap b := by
  rw [overlaps_iff_plain, pairOverlaps_iff]
  exact Iff.comm.trans or_iff_left_iff_imp

theorem noBareOverlap_of_rooted {a b : Lease} (ha : ∀ i ∈ a.identities, i.path.rooted = true)
    (hb : ∀ j ∈ b.identities, j.path.rooted = true) : a.NoBareOverlap b := by
  rintro ⟨i, hi, j, hj, ⟨-, hbare, -⟩ | ⟨-, hbare, -⟩⟩
  · rw [ha i hi] at hbare
    cases hbare
  · rw [hb j hj] at hbare
    cases hbare

theorem overlaps_comm (a b : Lease) : a.overlaps b = b.overlaps a := by
  have hswap : ∀ a b : Lease, a.overlaps b = true → b.overlaps a = true := by
    intro a b h
    obtain ⟨i, hi, j, hj, hplain⟩ := (overlaps_iff_plain a b).1 h
    exact (overlaps_iff_plain b a).2 ⟨j, hj, i, hi, hplain.symm⟩
  exact Bool.eq_iff_iff.2 ⟨hswap a b, hswap b a⟩

theorem PairOverlaps.symm {a b : Lease} (h : a.PairOverlaps b) : b.PairOverlaps a := by
  obtain ⟨i, hi, j, hj, hoverlaps⟩ := h
  refine ⟨j, hj, i, hi, ?_⟩
  unfold FileIdentity.overlaps at hoverlaps ⊢
  rwa [Bool.or_comm]

end Lease

/-! ## Runs -/

namespace ActiveArchiveRegistry

open Lease

theorem reserve_of_conflict {registry : ActiveArchiveRegistry} {files : FileSystem}
    {owner origin : String} {paths : List Text} {conflict : ArchiveConflict}
    (h : (registry.reserve files owner origin paths).1 = some conflict) :
    (registry.reserve files owner origin paths).2 = registry := by
  unfold reserve at h ⊢
  dsimp only at h ⊢
  cases hfound : registry.findConflict (candidate files owner origin paths) with
  | none =>
    rw [hfound] at h
    cases h
  | some conflict' => rfl

theorem findConflict_eq_none {registry : ActiveArchiveRegistry} {lease : Lease}
    (h : registry.findConflict lease = none) {owner : String} {held : Lease}
    (hget : registry.leases.get? owner = some held) (howner : owner ≠ lease.owner) :
    lease.overlaps held = false := by
  unfold findConflict at h
  rw [Option.map_eq_none_iff, List.find?_eq_none] at h
  have hentry := h (owner, held) (Dict.mem_entries.2 hget)
  rw [Bool.and_eq_true, decide_eq_true_eq, not_and] at hentry
  exact Bool.eq_false_iff.2 (hentry howner)

/-- The request has no trouble with drives that other owners hold. -/
def Meets (registry : ActiveArchiveRegistry) : Call → Prop
  | .release _ => True
  | .reserve files owner origin paths => ∀ other held, registry.leases.get? other = some held →
      other ≠ owner → (candidate files owner origin paths).NoBareOverlap held

def MeetsAll (registry : ActiveArchiveRegistry) : List Call → Prop
  | [] => True
  | call :: calls => registry.Meets call ∧ MeetsAll (registry.call call) calls

/-- Leases of different owners have no pair that overlaps. -/
def Exclusive (registry : ActiveArchiveRegistry) : Prop :=
  ∀ owner other lease held, registry.leases.get? owner = some lease →
    registry.leases.get? other = some held → owner ≠ other → ¬ lease.PairOverlaps held

theorem Exclusive.call {registry : ActiveArchiveRegistry} (h : registry.Exclusive) {call : Call}
    (hmeets : registry.Meets call) : (registry.call call).Exclusive := by
  cases call with
  | release owner =>
    intro owner' other lease held hget hget'
    unfold ActiveArchiveRegistry.call release at hget hget'
    rw [Dict.get?_erase] at hget hget'
    split_ifs at hget hget'
    exact h owner' other lease held hget hget'
  | reserve files owner origin paths =>
    unfold ActiveArchiveRegistry.call reserve
    dsimp only
    cases hfound : registry.findConflict (candidate files owner origin paths) with
    | some conflict => exact h
    | none =>
      have hnew : ∀ other held, registry.leases.get? other = some held → other ≠ owner →
          ¬ (candidate files owner origin paths).PairOverlaps held := by
        intro other held hget hne hpair
        have hexact := (overlaps_exact _ _).2 (hmeets other held hget hne)
        rw [← hexact, findConflict_eq_none hfound hget hne] at hpair
        cases hpair
      intro owner' other lease held hget hget' hne
      dsimp only at hget hget'
      rw [Dict.get?_set] at hget hget'
      split_ifs at hget hget' with howner hother hother
      · exact absurd (howner.trans hother.symm) hne
      · obtain rfl := Option.some.inj hget
        exact hnew other held hget' hother
      · obtain rfl := Option.some.inj hget'
        exact fun hpair => hnew owner' lease hget howner hpair.symm
      · exact h owner' other lease held hget hget' hne

theorem Exclusive.run {calls : List Call} {registry : ActiveArchiveRegistry}
    (h : registry.Exclusive) (hmeets : registry.MeetsAll calls) :
    (calls.foldl ActiveArchiveRegistry.call registry).Exclusive := by
  induction calls generalizing registry with
  | nil => exact h
  | cons call calls ih => exact ih (h.call hmeets.1) hmeets.2

/-- Leases exclude each other in any run whose requests have no trouble with drives; the sets and walks
of `overlaps` answer what the pairs do exactly there. -/
theorem registry_spec (calls : List Call) (a b : Lease) :
    (MeetsAll {} calls → (run calls).Exclusive) ∧
    (∀ registry files owner origin paths conflict,
      (reserve registry files owner origin paths).1 = some conflict →
        (reserve registry files owner origin paths).2 = registry) ∧
    a.overlaps b = b.overlaps a ∧
    ((a.overlaps b = true ↔ a.PairOverlaps b) ↔ a.NoBareOverlap b) := by
  refine ⟨fun hmeets => ?_, fun _ _ _ _ _ _ => reserve_of_conflict, overlaps_comm a b,
    overlaps_exact a b⟩
  apply Exclusive.run ?_ hmeets
  intro owner other lease held hget
  cases hget

/-! ## A share and an archive on it -/

theorem splitroot_share (rest : Text) : splitroot ("\\\\server\\share".toList ++ '\\' :: rest) =
    ("\\\\server\\share".toList, ['\\'], rest) := rfl

def sharePath : NormalPath where
  drive := "\\\\server\\share".toList
  rooted := false
  names := []
  splitRooted h := by cases h
  splitBare _ := ⟨rfl, rfl⟩
  name := by decide

def archivePath : NormalPath where
  drive := "\\\\server\\share".toList
  rooted := true
  names := [['a', '.', 'z', 'i', 'p']]
  splitRooted _ := ⟨of_decide_eq_true rfl, of_decide_eq_true rfl, splitroot_share⟩
  splitBare h := by cases h
  name name h := by
    obtain rfl := List.mem_singleton.1 h
    refine ⟨List.cons_ne_nil _ _, ?_⟩
    simp [isSeparator]

def shareFiles : FileSystem where
  abspath path := path
  normalizedPath path := if path = sharePath.text then sharePath else archivePath
  stat path := some (if path.rooted then ⟨1, 7, false⟩ else ⟨1, 5, true⟩)

def shareLease : Lease := candidate shareFiles "first" "foreground" [sharePath.text]

def archiveLease : Lease := candidate shareFiles "second" "foreground" [archivePath.text]

theorem archiveLease_overlaps : archiveLease.overlaps shareLease = false := by
  rw [Bool.eq_false_iff]
  intro h
  have hplain := (overlaps_iff_plain _ _).1 h
  revert hplain
  unfold FileIdentity.PlainContains
  decide

theorem archiveLease_pair : shareLease.PairOverlaps archiveLease := by
  refine ⟨FileIdentity.fromPath shareFiles sharePath.text, List.mem_singleton_self _,
    FileIdentity.fromPath shareFiles archivePath.text, List.mem_singleton_self _, ?_⟩
  decide

/-- Both requests get their leases. -/
theorem registry_spec_share : ¬ ∀ calls, (run calls).Exclusive := by
  intro h
  have hrun : run [.reserve shareFiles "first" "foreground" [sharePath.text],
      .reserve shareFiles "second" "foreground" [archivePath.text]] =
        { leases := ((∅ : Dict String Lease).set "first" shareLease).set "second" archiveLease } := by
    have hfree : findConflict { leases := (∅ : Dict String Lease).set "first" shareLease }
        archiveLease = none := by
      show (List.find? (fun entry => entry.1 ≠ "second" && archiveLease.overlaps entry.2)
        [("first", shareLease)]).map _ = none
      rw [List.find?_cons, archiveLease_overlaps, Bool.and_false]
      rfl
    show (match findConflict { leases := (∅ : Dict String Lease).set "first" shareLease }
      archiveLease with
      | some conflict => (some conflict, _)
      | none => (none, _)).2 = _
    rw [hfree]
    rfl
  have hexclusive := h [.reserve shareFiles "first" "foreground" [sharePath.text],
    .reserve shareFiles "second" "foreground" [archivePath.text]]
  rw [hrun] at hexclusive
  exact hexclusive "first" "second" shareLease archiveLease rfl rfl (by decide) archiveLease_pair

/-- The archive alone is requested twice. -/
def archiveCalls : List Call :=
  [.reserve shareFiles "first" "watch" [archivePath.text],
    .reserve shareFiles "second" "foreground" [archivePath.text]]

theorem registry_spec_archive : (run archiveCalls).Exclusive ∧
    shareLease.overlaps archiveLease = archiveLease.overlaps shareLease := by
  have hrooted : ∀ owner origin, ∀ i ∈ (candidate shareFiles owner origin
      [archivePath.text]).identities, i.path.rooted = true := by
    intro owner origin i hi
    obtain rfl := List.mem_singleton.1 hi
    decide
  have hmeets : MeetsAll {} archiveCalls := by
    refine ⟨fun other held hget => ?_, fun other held hget hne => ?_, trivial⟩
    · cases hget
    · replace hget : ((∅ : Dict String Lease).set "first"
        (candidate shareFiles "first" "watch" [archivePath.text])).get? other = some held := hget
      rw [Dict.get?_set] at hget
      split_ifs at hget with howner
      · obtain rfl := Option.some.inj hget
        exact noBareOverlap_of_rooted (hrooted _ _) (hrooted _ _)
      · cases hget
  have hspec := registry_spec archiveCalls shareLease archiveLease
  exact ⟨hspec.1 hmeets, hspec.2.2.1⟩

end ActiveArchiveRegistry

end Sunpack.ArchiveRegistry
