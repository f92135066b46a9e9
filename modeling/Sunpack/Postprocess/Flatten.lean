import Sunpack.Postprocess.Entries

/-!
# Flattening of wrapper directories

`flatten_single_branch_chain_with_publisher`: an output directory that is a chain of single
directories is renamed to a work path, the last directory of the chain is published in its place, and
the empty wrappers are removed. A call may be told the leaf that an earlier call has recorded.

A disk is what stands at the root and at the work path. A call has a trace, the disks after each rename
and removal, so that it can be cut off at any of them.
-/

namespace Sunpack.Postprocess

open Lib

inductive Node
  | file (content : Nat)
  | directory (entries : List (Text × Node))

namespace Node

def get : List Text → Node → Option Node
  | [], node => some node
  | _ :: _, .file _ => none
  | name :: names, .directory entries => (Dict.find name entries).bind (get names)

def remove : List Text → Node → Node
  | [], node => node
  | _ :: _, .file content => .file content
  | [name], .directory entries => .directory (Dict.drop name entries)
  | name :: names, .directory entries =>
    match Dict.find name entries with
    | none => .directory entries
    | some node => .directory (Dict.put name (remove names node) entries)

def isDir : Node → Bool
  | .file _ => false
  | .directory _ => true

/-- `only_child_directory`. -/
def onlyChildDirectory : Node → Option (Text × Node)
  | .directory [(name, .directory entries)] => some (name, .directory entries)
  | _ => none

/-- `discover_flatten_leaf`: the names of the chain. -/
def discoverFlattenLeaf : Node → List Text
  | .directory [(name, .directory entries)] => name :: discoverFlattenLeaf (.directory entries)
  | _ => []

end Node

/-- What stands at the output root and at the work path. -/
structure Disk where
  root : Option Node
  work : Option Node := none

/-- The spellings of the root: its parent and its name, where it has them. -/
structure RootPath where
  text : Text
  parent : Option Text
  name : Option Text

/-- A recorded leaf, in the names below the root. -/
inductive LeafPath
  | below (names : List Text)
  | elsewhere

/-- A failure of the system: not that nothing is there. -/
structure Failure where
  error : IoError
  found : error.isNotFound = false

/-- How a call goes: what fails, and what others put at the root before the leaf is published. Each
error of a rename to a visible work path is one attempt. -/
structure Faults where
  beforeMove : Option IoError := none
  rename : List IoError := []
  arrival : Option Node := none
  publish : Option IoError := none
  removals : List (Option Failure) := []

structure FlattenStats where
  moved : Nat := 0
  removedDirs : Nat := 0
  errors : List Text := []
  outputDir : Option Text := none
  sourceDir : Option Text := none

def joinNames (path : Text) (names : List Text) : Text :=
  names.foldl (fun path name => path ++ '\\' :: name) path

namespace Disk

/-- `rename_no_replace(root, work)`. -/
def moveRoot (disk : Disk) : Except IoError Disk :=
  match disk.root with
  | none => .error .notFound
  | some node => if disk.work.isSome then .error .alreadyExists else .ok ⟨none, some node⟩

/-- `rename_no_replace(work/leaf, root)`. -/
def publish (disk : Disk) (names : List Text) : Except IoError Disk :=
  match disk.work.bind (Node.get names) with
  | none => .error .notFound
  | some leaf =>
    if disk.root.isSome then .error .alreadyExists
    else .ok ⟨some leaf, disk.work.map (Node.remove names)⟩

/-- `fs::remove_dir` of a directory at or below the work path. -/
def removeDir (disk : Disk) (names : List Text) : Except IoError Disk :=
  match disk.work.bind (Node.get names) with
  | none => .error .notFound
  | some (.file _) => .error .notDirectory
  | some (.directory (_ :: _)) => .error .notEmpty
  | some (.directory []) =>
    .ok { disk with work := if names = [] then none else disk.work.map (Node.remove names) }

end Disk

/-- The rename of the root to a work path: the path, or an error. A reserved path is tried once; a
visible one has a number from the second attempt on, and only a name collision makes another attempt. -/
def moveToWork (root : RootPath) (reserved : Option Text) (faults : Faults) (disk : Disk) :
    Except Text (Text × Disk) :=
  match reserved with
  | some work =>
    match faults.rename with
    | error :: _ => .error (work ++ ": ".toList ++ error.text)
    | [] =>
      match disk.moveRoot with
      | .error error => .error (work ++ ": ".toList ++ error.text)
      | .ok disk => .ok (work, disk)
  | none =>
    match root.parent, root.name with
    | none, _ =>
      .error (root.text ++ ": output root has no parent for flatten work directory".toList)
    | some _, none => .error (root.text ++ ": output root has no directory name".toList)
    | some parent, some name => visible (joinNames parent [name]) faults.rename 1
where
  workName (path : Text) (attempt : Nat) : Text :=
    path ++ ".__sunpack_flatten_work__".toList ++
      if attempt > 1 then (Nat.repr attempt).toList else []
  visible (path : Text) : List IoError → Nat → Except Text (Text × Disk)
    | [], attempt =>
      match disk.moveRoot with
      | .error error =>
        .error (root.text ++ " -> ".toList ++ workName path attempt ++ ": ".toList ++ error.text)
      | .ok disk => .ok (workName path attempt, disk)
    | error :: errors, attempt =>
      if error.isNameCollision then visible path errors (attempt + 1)
      else .error (root.text ++ " -> ".toList ++ workName path attempt ++ ": ".toList ++ error.text)

/-- One turn of the loop over the wrappers, and the turns after it: how many are removed, the error that
stops the loop, and the disks on the way. -/
def removeWrapper (directory : Text) (removed : Except IoError Disk) (disk : Disk)
    (rest : Disk → Nat × Option Text × List Disk) : Nat × Option Text × List Disk :=
  match removed with
  | .ok disk =>
    let rest := rest disk
    (rest.1 + 1, rest.2.1, disk :: rest.2.2)
  | .error error =>
    if error.isNotFound then rest disk else (0, some (directory ++ ": ".toList ++ error.text), [])

def tryRemove (removals : List (Option Failure)) (disk : Disk) (names : List Text) :
    Except IoError Disk :=
  match removals.headD none with
  | some failure => .error failure.error
  | none => disk.removeDir names

/-- `remove_empty_flatten_wrappers`, from the directory of the first names up to the work path. -/
def removeWrappers (work : Text) (names : List Text) :
    Nat → List (Option Failure) → Disk → Nat × Option Text × List Disk
  | 0, removals, disk => removeWrapper work (tryRemove removals disk []) disk fun _ => (0, none, [])
  | depth + 1, removals, disk =>
    removeWrapper (joinNames work (names.take (depth + 1)))
      (tryRemove removals disk (names.take (depth + 1))) disk
      (removeWrappers work names depth removals.tail)

/-- The leaf is at the root, by this call or an earlier one. -/
def finishFlatten (root : RootPath) (work : Text) (names : List Text) (faults : Faults)
    (disk : Disk) : FlattenStats × List Disk :=
  let cleaned := removeWrappers work names (names.length - 1) faults.removals disk
  ({ moved := 1
     removedDirs := if cleaned.2.1.isSome then 0 else cleaned.1
     errors := cleaned.2.1.toList
     outputDir := some root.text
     sourceDir := some (joinNames root.text names) }, cleaned.2.2)

def publishLeaf (root : RootPath) (work : Text) (names : List Text) (resume : Bool)
    (faults : Faults) (disk : Disk) : FlattenStats × List Disk :=
  if resume && disk.root.any Node.isDir then finishFlatten root work names faults disk
  else
    -- others may be there first
    let disk : Disk := { disk with root := disk.root.or faults.arrival }
    let published : Except IoError Disk :=
      match faults.publish with
      | some error => .error error
      | none => disk.publish names
    match published with
    | .error error =>
      ({ errors := [joinNames work names ++ " -> ".toList ++ root.text ++ ": ".toList ++ error.text]
         outputDir := some work
         sourceDir := some root.text }, [disk])
    | .ok disk =>
      let finished := finishFlatten root work names faults disk
      (finished.1, disk :: finished.2)

/-- `flatten_single_branch_chain_with_publisher`: the statistics, and the disks of the call. -/
def flatten (root : RootPath) (reserved : Option Text) (resume : Option LeafPath) (faults : Faults)
    (disk : Disk) : FlattenStats × List Disk :=
  let leaf : Option LeafPath :=
    match resume with
    | some leaf => some leaf
    | none =>
      match disk.root.map Node.discoverFlattenLeaf with
      | none => none
      | some [] => none
      | some names => some (.below names)
  match leaf with
  | none => ({}, [])
  | some .elsewhere | some (.below []) =>
    ({ errors := [root.text ++ ": flatten leaf is not below output root".toList] }, [])
  | some (.below (name :: names)) =>
    let names := name :: names
    match reserved, resume, faults.beforeMove with
    | some work, some _, _ => publishLeaf root work names true faults disk
    | some work, none, some error => ({ errors := [work ++ ": ".toList ++ error.text] }, [])
    | _, _, _ =>
      match moveToWork root reserved faults disk with
      | .error error => ({ errors := [error] }, [])
      | .ok (work, disk) =>
        let published := publishLeaf root work names resume.isSome faults disk
        (published.1, disk :: published.2)

end Sunpack.Postprocess
