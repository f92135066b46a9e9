import Sunpack.Lib.Chains
import Sunpack.Lib.Dict
import Sunpack.Lib.Sums64
import Sunpack.OutputPaths.Names

/-!
# Hard links in a TAR manifest

A hard link has no payload of its own: `tar_hard_link_sizes` walks the members a second time for the
names that hard links ask for, and follows the links to the sizes of files. The walks are modelled
by the members they find, with the offsets of their headers.
-/

namespace Sunpack.ArchiveState

open Lib OutputPaths.Verifier

structure TarMember where
  path : Option Text
  isFile : Bool
  size : Nat
  hardLink : Option Text
deriving DecidableEq, Repr

/-- A member and the offset of its header. -/
structure Placed extends TarMember where
  offset : Nat
deriving DecidableEq, Repr

/-- The members that a walk through an archive finds. -/
structure TarWalk where
  members : List Placed
  ordered : members.Pairwise fun a b => a.offset < b.offset

structure TarHardLink where
  offset : Nat
  target : Text
  entry : Option Nat
deriving DecidableEq, Repr

/-- What the walk for the manifest keeps: the hard links, and the entries, by their sizes. -/
structure Rows where
  links : List TarHardLink
  entries : List Nat
deriving DecidableEq, Repr

/-- An entry is kept for a member with a path. -/
def Rows.record (rows : Rows) (m : Placed) : Rows :=
  if m.isFile then
    { links := rows.links ++ (m.hardLink.map fun target =>
        ⟨m.offset, target, m.path.map fun _ => rows.entries.length⟩).toList
      entries := if m.path.isSome then rows.entries ++ [m.size] else rows.entries }
  else rows

def rowsOf (members : List Placed) : Rows := members.foldl Rows.record ⟨[], []⟩

/-- The header offset, the logical size and the hard-link index. -/
structure Target where
  offset : Nat
  size : Nat
  link : Option Nat
deriving DecidableEq, Repr

/-- The names that the links ask for, and the links by their offsets. -/
structure Requests where
  targets : Dict Text (List Target)
  linkOffsets : Dict Nat Nat

def Requests.add (r : Requests) (index : Nat) (link : TarHardLink) : Requests :=
  ⟨r.targets.orDefault (cleanRelativeArchivePath link.target), r.linkOffsets.set link.offset index⟩

def requestTargets : List TarHardLink → Nat → Requests → Option Requests
  | [], _, r => some r
  | link :: rest, index, r =>
    if unsafeArchivePath link.target || link.target.isEmpty then none
    else requestTargets rest (index + 1) (r.add index link)

/-- The second walk keeps the members whose names were asked for. -/
def addCandidate (linkOffsets : Dict Nat Nat) (targets : Dict Text (List Target)) (m : Placed) :
    Dict Text (List Target) :=
  if m.isFile then
    match m.path with
    | none => targets
    | some path =>
      match targets.get? (cleanRelativeArchivePath path) with
      | none => targets
      | some candidates => targets.set (cleanRelativeArchivePath path)
          (candidates ++ [⟨m.offset, m.size, linkOffsets.get? m.offset⟩])
  else targets

def sourceOf (targets : Dict Text (List Target)) (link : TarHardLink) : Option Target :=
  (targets.get? (cleanRelativeArchivePath link.target)).bind fun candidates =>
    let next := (candidates.takeWhile fun candidate => candidate.offset < link.offset).length
    candidates[if 0 < next then next - 1 else 0]?

/-- A chain that was followed: the size at its end, the marks, and the links on the way. -/
structure Chain where
  size : Nat
  visiting : List Bool
  chain : List Nat
deriving DecidableEq, Repr

/-- Every link is marked when the chain reaches it; a mark without a size is a cycle. -/
def followChain (sources : List Target) (sizes : List (Option Nat)) (visiting : List Bool)
    (chain : List Nat) (cursor : Nat) : Option Chain :=
  match sizes[cursor]? with
  | some (some size) => some ⟨size, visiting, chain⟩
  | _ =>
    if _h : visiting[cursor]? = some false then
      (sources[cursor]?).bind fun source =>
        match source.link with
        | some next =>
          followChain sources sizes (visiting.set cursor true) (chain ++ [cursor]) next
        | none => some ⟨source.size, visiting.set cursor true, chain ++ [cursor]⟩
    else none
termination_by visiting.count false
decreasing_by exact count_false_set_lt _h

structure Sizing where
  sizes : List (Option Nat)
  visiting : List Bool
  total : Nat
  entries : List Nat
deriving DecidableEq, Repr

/-- `sizes[index] = Some(size)` along a chain. -/
def setSizes (size : Nat) (chain : List Nat) (sizes : List (Option Nat)) : List (Option Nat) :=
  chain.foldl (fun sizes index => sizes.set index (some size)) sizes

def setEntry (entries : List Nat) (link : TarHardLink) (size : Nat) : List Nat :=
  match link.entry with
  | none => entries
  | some entry => entries.set entry size

def sizeLinks (sources : List Target) : List TarHardLink → Nat → Sizing → Option Sizing
  | [], _, s => some s
  | link :: rest, start, s =>
    (followChain sources s.sizes s.visiting [] start).bind fun found =>
      sizeLinks sources rest (start + 1)
        { sizes := setSizes found.size found.chain s.sizes
          visiting := found.visiting
          total := sat64 s.total found.size
          entries := setEntry s.entries link found.size }

/-- The sum of the sizes, and the entries with the sizes of the links. -/
def linkSizes (members : List Placed) (links : List TarHardLink) (entries : List Nat) :
    Option (Nat × List Nat) :=
  (requestTargets links 0 ⟨∅, ∅⟩).bind fun r =>
    (links.mapM (sourceOf (members.foldl (addCandidate r.linkOffsets) r.targets))).bind fun sources =>
      (sizeLinks sources links 0 ⟨List.replicate links.length none,
        List.replicate links.length false, 0, entries⟩).map fun s => (s.total, s.entries)

def hardLinkError : String := "invalid TAR hard-link target or cycle"

def tarHardLinkSizes (members : List Placed) (links : List TarHardLink) (entries : List Nat) :
    Except String (Nat × List Nat) :=
  match linkSizes members links entries with
  | some answer => .ok answer
  | none => .error hardLinkError

end Sunpack.ArchiveState
