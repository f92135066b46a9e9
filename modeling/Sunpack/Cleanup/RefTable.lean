import Sunpack.PathKeys
import Sunpack.Lib.Dict
import Sunpack.Lib.Machine

/-!
# The cleanup reference table

`cleanup_refs.py`: which tasks still hold which source files, and which of the files that lost their
last owner may be deleted. `absolutePathKey` depends on the current directory and the case table of
the system; here it is any function. A task is what the table reads of it at the time of a call, so
its paths may change between calls.
-/

namespace Sunpack.Cleanup

open Lib

structure Task where
  /-- `id(task)`. -/
  id : Nat
  key : Text := []
  mainPath : Text := []
  cleanupParts : List Text := []
  allParts : List Text := []
deriving DecidableEq, Repr

def Task.taskKey (task : Task) : Text := if task.key ≠ [] then task.key else task.mainPath

structure ReleaseRequest where
  taskKey : Text
  /-- All paths that lost their last owner. -/
  paths : List Text := []
  /-- Released paths whose owners all authorized cleanup. -/
  cleanupPaths : List Text := []
deriving DecidableEq, Repr

def ReleaseRequest.shouldClean (request : ReleaseRequest) : Bool := request.cleanupPaths ≠ []

/-- An owner of the table. -/
structure Entry where
  task : Task
  taskKey : Text
  paths : List Text
  eligible : Bool
deriving DecidableEq, Repr

structure CleanupRefTable where
  counts : Dict Text Int := ∅
  owned : Dict Nat Entry := ∅
  /-- A released unsuccessful owner vetoes deletion until all owners leave. -/
  preserved : Finset Text := ∅

variable (absolutePathKey : Text → Text)

/-- `unique.setdefault(absolute_path_key(path), path)` for a path that is not empty. -/
def addCandidate (unique : Dict Text Text) (path : Text) : Dict Text Text :=
  if path = [] || (unique.get? (absolutePathKey path)).isSome then unique
  else unique.set (absolutePathKey path) path

def cleanupPathsFor (task : Task) : List Text :=
  let candidates := if task.cleanupParts ≠ [] then task.cleanupParts else task.allParts
  (candidates.foldl (addCandidate absolutePathKey) ∅).values

def Entry.keys (entry : Entry) : List Text := entry.paths.map absolutePathKey

namespace CleanupRefTable

/-- `_counts[key] -= 1` for a path that its owner no longer has. -/
def dropKey (t : CleanupRefTable) (key : Text) : Except String CleanupRefTable :=
  match t.counts.get? key with
  | none => .error "KeyError"
  | some count =>
    if count - 1 = 0 then
      .ok { t with counts := t.counts.erase key, preserved := t.preserved.erase key }
    else .ok { t with counts := t.counts.set key (count - 1) }

def addKey (t : CleanupRefTable) (key : Text) : CleanupRefTable :=
  { t with counts := t.counts.set key ((t.counts.get? key).getD 0 + 1) }

/-- The keys that an owner holds, each once. -/
def ownedKeys (t : CleanupRefTable) (owner : Nat) : List Text :=
  (((t.owned.get? owner).map (·.keys absolutePathKey)).getD []).dedup

/-- The second half of `register`: a replacement detection plan may have added volumes or rejected
old candidates. -/
def reconcile (t : CleanupRefTable) (owner : Nat) (entry : Entry) :
    Except String CleanupRefTable := do
  let old := t.ownedKeys absolutePathKey owner
  let new := (entry.keys absolutePathKey).dedup
  let t ← (old.filter (· ∉ new)).foldlM dropKey t
  let t := (new.filter (· ∉ old)).foldl addKey t
  return { t with owned := t.owned.set owner entry }

def register (t : CleanupRefTable) (task : Task) : Except String CleanupRefTable :=
  let paths := cleanupPathsFor absolutePathKey task
  let previous := t.owned.get? task.id
  if previous.any fun entry => entry.taskKey = task.taskKey && entry.paths = paths then .ok t
  else
    let eligible := previous.any (·.eligible)
    t.reconcile absolutePathKey task.id
      { task := task, taskKey := task.taskKey, paths := paths, eligible := eligible }

def refresh (t : CleanupRefTable) (task : Task) : Except String CleanupRefTable :=
  match t.owned.get? task.id with
  | some _ => t.register absolutePathKey task
  | none => .ok t

def markCleanupEligible (t : CleanupRefTable) (task : Task) : CleanupRefTable :=
  match t.owned.get? task.id with
  | some entry =>
    if entry.eligible then t
    else { t with owned := t.owned.set task.id { entry with eligible := true } }
  | none => t

/-- What `_pop` has worked out so far. -/
structure Popping where
  table : CleanupRefTable
  zeroed : List Text := []
  cleanupPaths : List Text := []

/-- One turn of the loop of `_pop`. -/
def popPath (eligible : Bool) (p : Popping) (path : Text) : Popping :=
  let key := absolutePathKey path
  let t := p.table
  let remaining := (t.counts.get? key).getD 0 - 1
  if 0 < remaining then
    { p with table := { t with
        counts := t.counts.set key remaining
        preserved := if eligible then t.preserved else insert key t.preserved } }
  else
    { table := { t with counts := t.counts.erase key, preserved := t.preserved.erase key }
      zeroed := p.zeroed ++ [path]
      -- the last owner may delete only if no earlier owner needs a retry
      cleanupPaths :=
        if eligible && key ∉ t.preserved then p.cleanupPaths ++ [path] else p.cleanupPaths }

def pop (t : CleanupRefTable) (owner : Nat) : CleanupRefTable × ReleaseRequest :=
  match t.owned.get? owner with
  | none => (t, { taskKey := [] })
  | some entry =>
    let p := entry.paths.foldl (popPath absolutePathKey entry.eligible)
      { table := { t with owned := t.owned.erase owner } }
    (p.table, { taskKey := entry.taskKey, paths := p.zeroed, cleanupPaths := p.cleanupPaths })

def release (t : CleanupRefTable) (task : Task) : CleanupRefTable × ReleaseRequest :=
  t.pop absolutePathKey task.id

/-- Release every owner that never reported, in registration order. -/
def sweep (t : CleanupRefTable) : CleanupRefTable × List ReleaseRequest :=
  t.owned.keys.foldl (fun (done : CleanupRefTable × List ReleaseRequest) owner =>
    let (t, request) := done.1.pop absolutePathKey owner
    (t, done.2 ++ [request])) (t, [])

end CleanupRefTable

end Sunpack.Cleanup
