import Sunpack.Lib.Chains
import Sunpack.Lib.Dict
import Sunpack.OutputPaths.Names

/-!
# Hard links of the extract callback

`finalize_hard_links` of the 7-Zip bridge: when the files of an archive have been written, every hard
link is made to the item that it stands for, if that item is good. What the file system answers is in
`Env`; the space for the names and the chains is there.
-/

namespace Sunpack.ExtractCallback

open Lib OutputPaths

/-! ## Names -/

/-- One element of a path, on the elements before it. -/
def normalStep (normal : List WString) (element : WString) : List WString :=
  if element.isEmpty || element == [wide '.'] then normal
  else if element == [wide '.', wide '.'] then
    match normal.getLast? with
    | some last => if last == [wide '.', wide '.'] then normal ++ [element] else normal.dropLast
    | none => normal ++ [element]
  else normal ++ [element]

/-- `lexically_normal` of a path without a root, with slashes. An element that is removed from the
end leaves its separator there. -/
def lexicallyNormal (elements : List WString) : WString :=
  let normal := elements.foldl normalStep []
  match normal.getLast? with
  | none => [wide '.']
  | some last =>
    let name := [wide '/'].intercalate normal
    let removed := elements.getLast?.any fun element =>
      element.isEmpty || element == [wide '.'] || element == [wide '.', wide '.']
    if removed && last != [wide '.', wide '.'] then name ++ [wide '/'] else name

/-- The normal form of a path with a root name or a root directory is left open. -/
def archivePathKey (rooted : WString → WString) (name : WString) : WString :=
  if name.isEmpty then []
  else if Worker.hasRoot name then rooted name
  else lexicallyNormal (Worker.pathElements name)

/-! ## Items and links -/

/-- What a link takes over from its source. -/
structure Receipt where
  magic : List UInt8
  hasMtimeNs : Bool
  mtimeNs : Nat
  hasOutputCrc32 : Bool
  outputCrc32 : Nat
deriving DecidableEq, Repr

structure Item where
  index : Nat
  path : WString
  isDir : Bool
  hasExpectedSize : Bool
  expectedSize : UInt64
  bytesWritten : UInt64
  receipt : Receipt
  done : Bool
  failed : Bool
  crcVerified : Bool
  operationResult : Nat
  win32Error : Nat
  hresult : Nat
deriving DecidableEq, Repr

/-- The item of the link, and the key of the target. -/
structure HardLink where
  trace : Nat
  target : WString
deriving DecidableEq, Repr

inductive AttemptKind
  | succeeded
  | spaceFailure
  | permanentFailure
  | terminal
deriving DecidableEq, Repr

structure AttemptResult where
  kind : AttemptKind
  win32Error : Nat
deriving DecidableEq, Repr

structure Env where
  rooted : WString → WString
  dryRun : Bool
  /-- The replay has a complete file for the index of an item. -/
  alreadyCreated : Nat → Bool
  /-- `CreateHardLinkW` with its retries, for the item of a link. -/
  createHardLink : Nat → AttemptResult

structure Callback where
  items : List Item
  filesWritten : UInt32
  bytesWritten : UInt64
  totalBytesWritten : UInt64
  operationResult : Nat
  outputError : Bool
  failedItem : WString
  failedItemIndex : Nat
  lastWin32Error : Nat
  lastHresult : Nat
deriving DecidableEq, Repr

def kOpOk : Nat := 0
def kOpDataError : Nat := 2
def ERROR_INVALID_DATA : Nat := 13
def ERROR_CANCELLED : Nat := 1223

def hresultFromWin32 (error : Nat) : Nat :=
  if error = 0 then 0 else 0x80070000 + error % 0x10000

def ERROR_INVALID_NAME : Nat := 123
def S_OK : Nat := 0
def E_INVALIDARG : Nat := 0x80070057

/-- `defer_hard_link`, for the current item: the link waits for the finalization. -/
def deferHardLink (rooted : WString → WString) (trace : Nat) (target : WString)
    (hardLinks : List HardLink) (s : Callback) : Nat × List HardLink × Callback :=
  if (Worker.safeRelativeItemPath target).isNone then
    (E_INVALIDARG, hardLinks,
      { s with
        items := s.items.modify trace fun item =>
          { item with failed := true, hresult := E_INVALIDARG, win32Error := ERROR_INVALID_NAME }
        outputError := true
        lastHresult := E_INVALIDARG
        lastWin32Error := ERROR_INVALID_NAME })
  else
    (S_OK, hardLinks ++ [⟨trace, archivePathKey rooted target⟩],
      { s with items := s.items.modify trace fun item => { item with done := false } })

/-! ## One link -/

def Item.fail (item : Item) (error : Nat) (outputFailure : Bool) : Item :=
  { item with
    done := false
    failed := true
    crcVerified := false
    operationResult := kOpDataError
    win32Error := if outputFailure then error else 0
    hresult := if outputFailure then hresultFromWin32 error else 0 }

/-- A target that is missing or not good is damage of the archive, not a failed output. -/
def Callback.fail (s : Callback) (trace : Nat) (item : Item) (error : Nat) (outputFailure : Bool) :
    Callback :=
  { s with
    items := s.items.set trace (item.fail error outputFailure)
    outputError := s.outputError || outputFailure
    operationResult := if s.operationResult = kOpOk then kOpDataError else s.operationResult
    failedItem := if s.failedItem.isEmpty then item.path else s.failedItem
    failedItemIndex := if s.failedItem.isEmpty then item.index else s.failedItemIndex
    lastWin32Error := if outputFailure then error else s.lastWin32Error
    lastHresult := if outputFailure then (item.fail error true).hresult else s.lastHresult }

/-- The size of the source is what the link was expected to have. -/
def Item.fits (item : Item) (size : UInt64) : Bool :=
  !item.hasExpectedSize || item.expectedSize == 0 || item.expectedSize == size

def Item.accepts (item source : Item) : Bool :=
  !item.failed && source.done && !source.failed && source.crcVerified && item.fits source.bytesWritten

def Item.linkTo (item source : Item) : Item :=
  { item with
    bytesWritten := source.bytesWritten
    expectedSize := source.bytesWritten
    hasExpectedSize := true
    receipt := source.receipt
    crcVerified := true
    done := true
    operationResult := kOpOk }

def Callback.linkTo (s : Callback) (trace : Nat) (item source : Item) : Callback :=
  { s with
    items := s.items.set trace (item.linkTo source)
    filesWritten := s.filesWritten + 1
    bytesWritten := s.bytesWritten + source.bytesWritten
    totalBytesWritten := s.totalBytesWritten + source.bytesWritten }

/-- The result for a link whose source is good. -/
def Env.attempt (env : Env) (trace : Nat) (item : Item) : AttemptResult :=
  if env.dryRun || env.alreadyCreated item.index then ⟨.succeeded, 0⟩ else env.createHardLink trace

def Callback.resolve (env : Env) (s : Callback) (trace : Nat) (source : Option Nat) : Callback :=
  match s.items[trace]? with
  | none => s
  | some item =>
    match source.bind fun source => s.items[source]? with
    | none => s.fail trace item ERROR_INVALID_DATA false
    | some source =>
      if item.accepts source then
        let result := env.attempt trace item
        if result.kind = .succeeded then s.linkTo trace item source
        else s.fail trace item
          (if result.win32Error ≠ 0 then result.win32Error else ERROR_CANCELLED) true
      else s.fail trace item ERROR_INVALID_DATA false

/-! ## All links -/

/-- The names that links ask for, and the links by their items; the first one stays. -/
structure Requests where
  targets : Dict WString (List Nat)
  links : Dict Nat Nat

def Requests.add (r : Requests) (index : Nat) (link : HardLink) : Requests where
  targets := r.targets.orDefault link.target
  links := match r.links.get? link.trace with
    | some _ => r.links
    | none => r.links.set link.trace index

def requestTargets : List HardLink → Nat → Requests → Requests
  | [], _, r => r
  | link :: rest, index, r => requestTargets rest (index + 1) (r.add index link)

def addCandidate (rooted : WString → WString) (targets : Dict WString (List Nat)) (i : Nat)
    (item : Item) : Dict WString (List Nat) :=
  if item.isDir then targets
  else
    match targets.get? (archivePathKey rooted item.path) with
    | none => targets
    | some found => targets.set (archivePathKey rooted item.path) (found ++ [i])

def candidatesFrom (rooted : WString → WString) :
    List Item → Nat → Dict WString (List Nat) → Dict WString (List Nat)
  | [], _, targets => targets
  | item :: rest, i, targets => candidatesFrom rooted rest (i + 1) (addCandidate rooted targets i item)

/-- The latest preceding version, otherwise a forward reference. -/
def sourceOf (targets : Dict WString (List Nat)) (link : HardLink) : Option Nat :=
  (targets.get? link.target).bind fun candidates =>
    let next := (candidates.takeWhile (· < link.trace)).length
    if 0 < next then candidates[next - 1]? else candidates[0]?

/-- The link that a link leads to. -/
def nextLink (links : Dict Nat Nat) (sources : List (Option Nat)) (i : Nat) : Option Nat :=
  ((sources[i]?).join).bind links.get?

/-- The chain from a link on, up to one that was visited, and the marks. -/
def collectChain (links : Dict Nat Nat) (sources : List (Option Nat)) (visited : List Bool)
    (cursor : Nat) : List Nat × List Bool :=
  if _h : visited[cursor]? = some false then
    match nextLink links sources cursor with
    | none => ([cursor], visited.set cursor true)
    | some next =>
      let rest := collectChain links sources (visited.set cursor true) next
      (cursor :: rest.1, rest.2)
  else ([], visited)
termination_by visited.count false
decreasing_by exact count_false_set_lt _h

/-- A chain is resolved from its end. -/
def resolveChain (env : Env) (hardLinks : List HardLink) (sources : List (Option Nat))
    (s : Callback) (chain : List Nat) : Callback :=
  chain.foldr (fun i s =>
    match hardLinks[i]? with
    | none => s
    | some link => s.resolve env link.trace (sources[i]?).join) s

def resolveFrom (env : Env) (hardLinks : List HardLink) (links : Dict Nat Nat)
    (sources : List (Option Nat)) : List Nat → List Bool → Callback → Callback
  | [], _, s => s
  | start :: rest, visited, s =>
    let found := collectChain links sources visited start
    resolveFrom env hardLinks links sources rest found.2 (resolveChain env hardLinks sources s found.1)

/-- Only the finalization may call a link done. -/
def clearDone (items : List Item) (hardLinks : List HardLink) : List Item :=
  hardLinks.foldl (fun items link => items.modify link.trace fun item => { item with done := false })
    items

def finalizeHardLinks (env : Env) (s : Callback) (hardLinks : List HardLink) : Callback :=
  let r := requestTargets hardLinks 0 ⟨∅, ∅⟩
  let targets := candidatesFrom env.rooted s.items 0 r.targets
  resolveFrom env hardLinks r.links (hardLinks.map (sourceOf targets)) (List.range hardLinks.length)
    (List.replicate hardLinks.length false) { s with items := clearDone s.items hardLinks }

end Sunpack.ExtractCallback
