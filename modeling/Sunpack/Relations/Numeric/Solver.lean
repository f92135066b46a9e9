import Sunpack.Lib.Loop
import Sunpack.Lib.SortedMap
import Sunpack.Relations.Groups

/-!
# The numeric solver

`numeric.rs`: which row gets which slot, when only numbers in file names are known. A read outside of
a vector, a counter below zero and a loop that does not end in time have no result.
-/

namespace Sunpack.Relations.Numeric

open Lib

/-- Domains of a family: the numbers of a row's name, with their widths. -/
structure NumericDomain (n : Nat) where
  row : Fin n
  required : Bool
  numbers : List (Nat × Nat)
deriving DecidableEq, Repr

structure FileNode (n : Nat) where
  row : Fin n
  required : Bool
  assigned : Bool := false
  edges : List Nat := []
  degree : Nat
  remaining : Nat := 0

structure SlotNode where
  number : Nat
  edges : List Nat := []
  degree : Nat := 0
  singleFiles : Nat := 0
  singleRemaining : Nat := 0

structure Edge where
  file : Nat
  slot : Nat
  width : Nat
  live : Bool

structure NumericSolver (n : Nat) where
  files : List (FileNode n) := []
  slots : List SlotNode := []
  edges : List Edge := []
  order : List Nat := []
  pending : List Nat := []
  missing : Bool := false

/-- `usize` subtraction of one. -/
def decrement (n : Nat) : Option Nat := if n = 0 then none else some (n - 1)

/-- The last edge of a file joins the registry of its slot. -/
def SlotNode.join (slot : SlotNode) (e : Nat) : SlotNode :=
  { slot with
    singleFiles := slot.singleFiles + 1
    singleRemaining := slot.singleRemaining ^^^ e }

/-- The last edge of a file leaves the registry of its slot. -/
def SlotNode.leave (slot : SlotNode) (e : Nat) : Option SlotNode := do
  let singleFiles ← decrement slot.singleFiles
  some { slot with
    singleFiles := singleFiles
    singleRemaining := slot.singleRemaining ^^^ e }

/-- A file has an edge less. -/
def FileNode.lose {n : Nat} (node : FileNode n) (e : Nat) : Option (FileNode n) := do
  let degree ← decrement node.degree
  some { node with
    degree := degree
    remaining := node.remaining ^^^ e }

/-- A slot has an edge less. -/
def SlotNode.lose (slot : SlotNode) : Option SlotNode := do
  let degree ← decrement slot.degree
  some { slot with degree := degree }

namespace NumericSolver

variable {n : Nat}

/-! ## Construction -/

/-- The graph so far, with `by_number` and the node of the domain at hand. -/
structure Building (n : Nat) where
  graph : NumericSolver n := {}
  byNumber : List (Nat × Nat) := []

/-- One number of a domain: the slot of the number, a new one if need be, and an edge to it. -/
def addNumber (file : Nat) (b : Building n × FileNode n) (numberWidth : Nat × Nat) :
    Option (Building n × FileNode n) := do
  let graph := b.1.graph
  let number := numberWidth.1
  let known := (b.1.byNumber.lookup number).isSome
  let slot := (b.1.byNumber.lookup number).getD graph.slots.length
  let slots := if known then graph.slots else graph.slots ++ [{ number := number }]
  let byNumber := if known then b.1.byNumber else insertKey number slot b.1.byNumber
  let edge := graph.edges.length
  let target ← slots[slot]?
  some
    ({ graph := { graph with
         edges := graph.edges ++ [⟨file, slot, numberWidth.2, true⟩]
         slots := slots.set slot { target with
           edges := target.edges ++ [edge]
           degree := target.degree + 1 } }
       byNumber := byNumber },
      { b.2 with
        edges := b.2.edges ++ [edge]
        remaining := b.2.remaining ^^^ edge })

/-- One domain, with all its edges. -/
def addDomain (b : Building n) (domain : NumericDomain n) : Option (Building n) := do
  let start : FileNode n :=
    { row := domain.row, required := domain.required, degree := domain.numbers.length }
  let added ← domain.numbers.foldlM (addNumber b.graph.files.length) (b, start)
  let graph := added.1.graph
  let node := added.2
  let graph ←
    if node.degree = 1 then do
      let edge ← graph.edges[node.remaining]?
      let target ← graph.slots[edge.slot]?
      some { graph with slots := graph.slots.set edge.slot (target.join node.remaining) }
    else some { graph with missing := graph.missing || (node.degree == 0 && node.required) }
  some { added.1 with graph := { graph with files := graph.files ++ [node] } }

/-- The slots of the order that have one single file. -/
def forcedSlots (slots : List SlotNode) : List Nat → Option (List Nat)
  | [] => some []
  | slot :: order => do
    let target ← slots[slot]?
    let rest ← forcedSlots slots order
    some (if target.singleFiles = 1 then slot :: rest else rest)

/-- `NumericSolver::new`. -/
def new (domains : List (NumericDomain n)) : Option (NumericSolver n) := do
  let b ← domains.foldlM addDomain {}
  let order := b.byNumber.map (·.2)
  let pending ← forcedSlots b.graph.slots order
  some { b.graph with
    order := order
    pending := pending }

/-! ## Removing and claiming -/

/-- The first half of `remove`: the edge leaves its file and its slot. -/
def detach (g : NumericSolver n) (e : Nat) (edge : Edge) : Option (NumericSolver n) := do
  let node ← g.files[edge.file]?
  let target ← g.slots[edge.slot]?
  let target ← if node.degree = 1 ∧ node.assigned = false then target.leave e else some target
  let node ← node.lose e
  let target ← target.lose
  some { g with
    edges := g.edges.set e { edge with live := false }
    files := g.files.set edge.file node
    slots := g.slots.set edge.slot target
    pending := if target.singleFiles = 1 then g.pending ++ [edge.slot] else g.pending }

/-- The second half of `remove`: a file with one edge left competes for its slot. -/
def wake (g : NumericSolver n) (file : Nat) : Option (NumericSolver n) := do
  let node ← g.files[file]?
  if node.assigned then some g
  else if node.degree = 1 then do
    let last ← g.edges[node.remaining]?
    let target ← g.slots[last.slot]?
    some { g with
      slots := g.slots.set last.slot (target.join node.remaining)
      pending := g.pending ++ [last.slot] }
  else if node.degree = 0 ∧ node.required = true then some { g with missing := true }
  else some g

def remove (g : NumericSolver n) (e : Nat) : Option (NumericSolver n) := do
  let edge ← g.edges[e]?
  if edge.live then do
    let g ← g.detach e edge
    g.wake edge.file
  else some g

/-- The first part of `claim`: the file of the edge is assigned. -/
def mark (g : NumericSolver n) (e : Nat) : Option (NumericSolver n) := do
  let edge ← g.edges[e]?
  let node ← g.files[edge.file]?
  let target ← g.slots[edge.slot]?
  let target ← if node.degree = 1 then target.leave e else some target
  some { g with
    files := g.files.set edge.file { node with assigned := true }
    slots := g.slots.set edge.slot target }

def claim (g : NumericSolver n) (e : Nat) (assignment : VolumeAssignment n) :
    Option (NumericSolver n × VolumeAssignment n) := do
  let edge ← g.edges[e]?
  let node ← g.files[edge.file]?
  let target ← g.slots[edge.slot]?
  let g ← g.mark e
  let g ← node.edges.foldlM remove g
  let g ← target.edges.foldlM remove g
  some (g, { assignment with slots := insertKey target.number node.row assignment.slots })

/-! ## Runs -/

def propagateBody (s : NumericSolver n × VolumeAssignment n) :
    Option ((NumericSolver n × VolumeAssignment n) ⊕ (NumericSolver n × VolumeAssignment n)) :=
  match s.1.pending with
  | [] => some (.inr s)
  | slot :: rest => do
    let g := { s.1 with pending := rest }
    let target ← g.slots[slot]?
    if target.singleFiles = 1 then do
      let s ← g.claim target.singleRemaining s.2
      some (if s.1.missing then .inr s else .inl s)
    else some (.inl (g, s.2))

def propagate (g : NumericSolver n) (assignment : VolumeAssignment n) :
    Option (NumericSolver n × VolumeAssignment n) :=
  loop propagateBody (g.pending.length + 3 * g.edges.length + 1) (g, assignment)

/-- The order from the first slot on that has edges. -/
def skipIdle (g : NumericSolver n) : List Nat → Option (List Nat)
  | [] => some []
  | slot :: rest => do
    let target ← g.slots[slot]?
    if target.degree = 0 then g.skipIdle rest else some (slot :: rest)

/-- The narrowest live edge so far, and whether another one is as narrow. -/
def compareEdge (g : NumericSolver n) (best : Option (Nat × Nat) × Bool) (e : Nat) :
    Option (Option (Nat × Nat) × Bool) := do
  let edge ← g.edges[e]?
  some <|
    if edge.live then
      match best.1 with
      | some (old, width) =>
        if width < edge.width then best
        else if width = edge.width then (some (old, width), true)
        else (some (e, edge.width), false)
      | none => (some (e, edge.width), false)
    else best

/-- The state has the rest of the order from the cursor on. -/
def runBody (s : (NumericSolver n × VolumeAssignment n) × List Nat) :
    Option (((NumericSolver n × VolumeAssignment n) × List Nat) ⊕
      Except RelationFailureReason (VolumeAssignment n)) := do
  let t ← propagate s.1.1 s.1.2
  if t.1.missing then some (.inr (.error .missingVolume))
  else do
    let order ← t.1.skipIdle s.2
    match order with
    | [] => some (.inr (.ok { t.2 with unresolved := [] }))
    | slot :: _ => do
      let target ← t.1.slots[slot]?
      let found ← target.edges.foldlM t.1.compareEdge (none, false)
      if found.2 then some (.inr (.error .ambiguousVolumeMapping))
      else do
        let best ← found.1
        let u ← t.1.claim best.1 t.2
        some (.inl (u, order))

def run (g : NumericSolver n) (assignment : VolumeAssignment n) :
    Option (Except RelationFailureReason (VolumeAssignment n)) :=
  if g.missing then some (.error .missingVolume)
  else loop runBody (g.edges.length + 1) ((g, assignment), g.order)

end NumericSolver

/-- `numeric::solve`; an assignment that failed is dropped by the caller. -/
def solve {n : Nat} (assignment : VolumeAssignment n) (domains : List (NumericDomain n)) :
    Option (Except RelationFailureReason (VolumeAssignment n)) := do
  let g ← NumericSolver.new domains
  g.run assignment

end Sunpack.Relations.Numeric
