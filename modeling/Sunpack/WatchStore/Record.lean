import Sunpack.WatchStore.PathSet

/-!
# Pending records

`PendingRecord::change_output`: the outputs of the tasks of a pending input, those that are committed,
and the identities by which recovery knows them.
-/

namespace Sunpack.WatchStore

open Lib

/-! ## Paths of the standard library -/

/-- The length of the prefix of a path in key form: `c:`, `\\server\share`, `\\?\name`. -/
def prefixLength : Text → Nat
  | '\\' :: '\\' :: rest =>
    let server := rest.takeWhile (· ≠ '\\')
    let share := (rest.drop (server.length + 1)).takeWhile (· ≠ '\\')
    if server = [] ∨ share = [] then 0 else server.length + share.length + 3
  | c :: ':' :: _ => if c.isAlpha then 2 else 0
  | _ => 0

/-- `Path::components`: the prefix, the root and the names. All prefixes but drives imply a root. -/
def components (path : Text) : List Text :=
  let rest := path.drop (prefixLength path)
  let root := if rest.head? = some '\\' ∨ 2 < prefixLength path then [['\\']] else []
  let names := (rest.splitOn '\\').filter fun name => name ≠ [] ∧ name ≠ ['.']
  if prefixLength path = 0 then root ++ names
  else path.take (prefixLength path) :: (root ++ names)

/-- `PathBuf::push` of a relative path. -/
def push (base rest : Text) : Text :=
  if base = [] ∨ base.getLast? = some '\\' ∨ base.length = 2 ∧ prefixLength base = 2 then base ++ rest
  else base ++ '\\' :: rest

/-! ## Records -/

structure PendingRecord (W : WatchPaths) where
  path : Text
  durableOwner : Bool := false
  activeOutputs : OrderedMap Text Text := {}
  committedRoots : PathSet W := {}
  completedSources : PathSet W := {}
  outputIdentities : OrderedMap Text Text := {}
  promotedDestinations : PathSet W := {}

inductive OutputChange
  | start (task output identity : Text)
  | finish (task output : Text) (keep : Bool) (identity : Option Text)
  | relocate (source destination identity : Text)
  | promote (destinations sources : List Text)

variable {W : WatchPaths}

/-- The identities without those of the paths that are not owned. -/
def dropUnowned (owned : Text → Bool) (paths : List Text) (identities : OrderedMap Text Text) :
    OrderedMap Text Text :=
  paths.foldl (fun ids path => if owned path then ids else ids.erase path) identities

/-- The closure of `Relocate`: where a path is after a move. -/
def relocated (W : WatchPaths) (source destination path : Text) : Text :=
  let key := W.pathKey path
  if key = W.pathKey source then destination
  else if isPathUnder key (W.pathKey source) then
    push destination (((components path).drop (components source).length).foldl push [])
  else path

/-- The identities of the source and of what starts with it and a separator. -/
def identitiesUnder (identities : OrderedMap Text Text) (source : Text) : List Text :=
  let start := trimEnd '\\' source ++ ['\\']
  let moved := ((identities.entries.dropWhile fun e => e.1 < start).takeWhile fun e =>
    start <+: e.1).map Prod.fst
  if (identities.get source).isSome then moved ++ [source] else moved

def moveIdentity (f : Text → Text) (identities : OrderedMap Text Text) (path : Text) :
    OrderedMap Text Text :=
  match identities.get path with
  | some id => (identities.erase path).insert (f path) id
  | none => identities

namespace PendingRecord

/-- Whether the path is an active output. -/
def isActive (r : PendingRecord W) (path : Text) : Bool := path ∈ r.activeOutputs.values

/-- The identities without that of the output that the task had before. -/
def withoutOld (r : PendingRecord W) (active : OrderedMap Text Text) (task output : Text) :
    OrderedMap Text Text :=
  match r.activeOutputs.get task with
  | some old =>
    if old ≠ output ∧ r.committedRoots.contains old = false ∧ old ∉ active.values then
      r.outputIdentities.erase old
    else r.outputIdentities
  | none => r.outputIdentities

def start (r : PendingRecord W) (task output identity : Text) : PendingRecord W :=
  let active := r.activeOutputs.insert task output
  { r with
    activeOutputs := active
    outputIdentities := (r.withoutOld active task output).insert output identity }

/-- The identities with the one that `Finish` may bring. -/
def withIdentity (r : PendingRecord W) (output : Text) : Option Text → OrderedMap Text Text
  | some identity => r.outputIdentities.insert output identity
  | none => r.outputIdentities

def finish (r : PendingRecord W) (task output : Text) (keep : Bool) (identity : Option Text) :
    PendingRecord W :=
  let old := r.activeOutputs.get task
  let active := r.activeOutputs.erase task
  let completed :=
    if keep then
      if W.pathKey task ≠ W.pathKey r.path then r.completedSources.insert task
      else r.completedSources
    else (r.completedSources.removeUnder output).1
  let committed :=
    if keep then r.committedRoots.retainRoot output else r.committedRoots.removeUnder output
  { r with
    activeOutputs := active
    committedRoots := committed.1
    completedSources := completed
    outputIdentities :=
      dropUnowned (fun path => committed.1.contains path || decide (path ∈ active.values))
        (committed.2 ++ old.toList ++ [output]) (r.withIdentity output identity) }

def relocate (r : PendingRecord W) (source destination identity : Text) : PendingRecord W :=
  let f := relocated W source destination
  let active := OrderedMap.ofList (r.activeOutputs.entries.map fun e => (f e.1, f e.2))
  let committed := r.committedRoots.removeUnder source
  let roots := committed.2.foldl (fun s path => (s.retainRoot (f path)).1) committed.1
  let completed := r.completedSources.removeUnder source
  let promoted := r.promotedDestinations.removeUnder source
  let identities :=
    (identitiesUnder r.outputIdentities source).foldl (moveIdentity f) r.outputIdentities
  { r with
    activeOutputs := active
    committedRoots := roots
    completedSources := completed.2.foldl (fun s path => s.insert (f path)) completed.1
    promotedDestinations := promoted.2.foldl (fun s path => s.insert (f path)) promoted.1
    outputIdentities :=
      if roots.contains destination || decide (destination ∈ active.values) then
        identities.insert destination identity
      else identities }

/-- One active output of `Promote`: it becomes a root if a source lies in it. -/
def promoteOutput (r : PendingRecord W) (sourceKeys : List Text)
    (state : PathSet W × OrderedMap Text Text) (output : Text) :
    PathSet W × OrderedMap Text Text :=
  let root := W.pathKey output
  if sourceKeys.any fun key => decide (key = root) || isPathUnder key root then
    let retained := state.1.retainRoot output
    (retained.1, dropUnowned r.isActive retained.2 state.2)
  else state

def promote (r : PendingRecord W) (destinations sources : List Text) : PendingRecord W :=
  let state := r.activeOutputs.values.foldl (r.promoteOutput (sources.map W.pathKey))
    (r.committedRoots, r.outputIdentities)
  { r with
    durableOwner := true
    promotedDestinations := destinations.foldl PathSet.insert r.promotedDestinations
    committedRoots := state.1
    outputIdentities := state.2 }

def changeOutput (r : PendingRecord W) : OutputChange → PendingRecord W
  | .start task output identity => r.start task output identity
  | .finish task output keep identity => r.finish task output keep identity
  | .relocate source destination identity => r.relocate source destination identity
  | .promote destinations sources => r.promote destinations sources

end PendingRecord

end Sunpack.WatchStore
